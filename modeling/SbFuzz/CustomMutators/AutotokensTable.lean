import SbFuzz.CustomMutators.AutotokensLexer
import SbFuzz.Systems.Numbering

/-! The token table of `autotokens` over a whole run: it numbers the tokens of a list that only
grows. -/

set_option autoImplicit false

namespace SbFuzz.CustomMutators.Autotokens

open SbFuzz.Fuzzer SbFuzz.Systems SbFuzz.Systems.Draws

/-! ## The numbered tokens -/

/-- The tokens that got an id, in turn. They are found again unless the ids start over. -/
structure Table.Tracks (table : Table) (names : List Token) : Prop where
  given : table.given = names.length
  numbers : names.length ≤ 0x100000000 → Numbers table.tokenToId table.idToToken names

theorem u32_eq {n : Nat} (small : n < 0x100000000) : u32 n = n := Nat.mod_eq_of_lt small

namespace Table

theorem tracks_empty : empty.Tracks [] := ⟨rfl, fun _ => Numbers.nil _⟩

theorem Tracks.assign {table : Table} {names : List Token} (tracks : table.Tracks names)
    (token : Token) : (table.assign token).Tracks (names ++ [token]) := by
  constructor
  · simp [Table.assign, tracks.given]
  · intro few
    rw [List.length_append, List.length_singleton] at few
    have next : table.currentId = names.length := by
      rw [currentId, tracks.given, u32_eq (by omega)]
    simp only [Table.assign, next]
    exact (tracks.numbers (by omega)).snoc token

theorem Tracks.assignAll {table : Table} {names : List Token} (tracks : table.Tracks names)
    (tokens : List Token) : (table.assignAll tokens).Tracks (names ++ tokens) := by
  induction tokens generalizing table names with
  | nil => simpa [Table.assignAll] using tracks
  | cons token tokens ih =>
      have rest := ih (tracks.assign token)
      rwa [List.append_assoc] at rest

/-- The tokens that get an id when these are made a structure. -/
def added (table : Table) : List Token → List Token
  | [] => []
  | token :: tokens =>
      if table.tokenToId token = 0 then token :: (table.assign token).added tokens
      else table.added tokens

theorem Tracks.internAll {table : Table} {names : List Token} (tracks : table.Tracks names)
    (tokens : List Token) :
    (table.internAll tokens).1.Tracks (names ++ table.added tokens) := by
  induction tokens generalizing table names with
  | nil => simpa [Table.internAll, added] using tracks
  | cons token tokens ih =>
      by_cases unseen : table.tokenToId token = 0
      · have rest := ih (tracks.assign token)
        simpa [Table.internAll, intern, added, unseen] using rest
      · have rest := ih tracks
        simpa [Table.internAll, intern, added, unseen] using rest

/-- Each id of the structure is the place of its token, in this list and in any longer one. -/
theorem Tracks.internAll_ids {table : Table} {names : List Token} (tracks : table.Tracks names)
    (tokens : List Token) (later : List Token)
    (few : (names ++ table.added tokens ++ later).length ≤ 0x100000000) :
    (table.internAll tokens).2.map ((names ++ table.added tokens ++ later)[·]?) =
      tokens.map some := by
  induction tokens generalizing table names with
  | nil => rfl
  | cons token tokens ih =>
      by_cases unseen : table.tokenToId token = 0
      · have list : names ++ table.added (token :: tokens) ++ later =
            names ++ [token] ++ (table.assign token).added tokens ++ later := by
          simp [added, unseen]
        rw [list] at few ⊢
        have rest := ih (tracks.assign token) few
        have fits : names.length < 0x100000000 := by
          simp only [List.length_append, List.length_singleton] at few
          omega
        have here : table.currentId = names.length := by
          rw [currentId, tracks.given, u32_eq fits]
        simp only [Table.internAll, intern, unseen, if_true, List.map_cons, here]
        rw [rest]
        simp
      · have list : table.added (token :: tokens) = table.added tokens := by
          simp [added, unseen]
        rw [list] at few ⊢
        have rest := ih tracks few
        have fits : names.length ≤ 0x100000000 := by
          simp only [List.length_append] at few
          omega
        have found := (tracks.numbers fits).getElem?_numberOf unseen
        have inside := (List.getElem?_eq_some_iff.mp found).1
        simp only [Table.internAll, intern, unseen, if_false, List.map_cons]
        rw [rest, List.append_assoc, List.getElem?_append_left inside, found]

end Table

/-! ## A call -/

/-- What `first_run` adds to the tokens, if this call makes it. -/
def enteringTokens (config : Config) (state : State) (call : Call) : List Token :=
  if state.isFirstRun then firstRunTokens config call.afl { state with isFirstRun := false }
  else []

/-- What `first_run` can do: add tokens, disable the module, mark the inputs that are text. -/
theorem firstRun_cases {config : Config} {afl after : Afl} {state started : State}
    (entered : firstRun config afl state = some (after, started)) :
    (after = afl ∨ after = afl.markAscii) ∧ ∃ extrasCnt moduleDisabled,
      started = { state with
        table := state.table.assignAll (firstRunTokens config afl state)
        extrasCnt := extrasCnt
        moduleDisabled := moduleDisabled } := by
  have nothing : looksAtDictionary config afl = false → firstRunTokens config afl state = [] :=
    fun off => by rw [firstRunTokens, off, if_neg (by decide)]
  unfold firstRun at entered
  split at entered
  · next off =>
    have noTokens : firstRunTokens config afl state = [] := by
      apply nothing
      unfold looksAtDictionary
      revert off
      cases afl.customOnly <;> cases config.autoDisable <;> simp
    cases entered
    rw [noTokens]
    exact ⟨.inl rfl, _, _, rfl⟩
  · split at entered
    · next short =>
      split at entered
      · cases entered
        exact ⟨.inl rfl, _, _, rfl⟩
      · next few =>
        have noTokens : firstRunTokens config afl state = [] :=
          nothing (by simp [looksAtDictionary, few])
        cases entered
        rw [noTokens]
        exact ⟨.inl rfl, _, _, rfl⟩
    · next long =>
      have noTokens : firstRunTokens config afl state = [] := by
        rw [Bool.not_eq_true] at long
        exact nothing (by simp [looksAtDictionary, long])
      dsimp only at entered
      split at entered
      · cases entered
      · cases entered
        rw [noTokens]
        exact ⟨.inr rfl, _, _, rfl⟩

theorem enter_cases {config : Config} {call : Call} {afl : Afl} {state started : State}
    (entered : enter config state call = some (afl, started)) :
    (afl = call.afl ∨ afl = call.afl.markAscii) ∧ ∃ extrasCnt moduleDisabled,
      started = { state with
        isFirstRun := false
        table := state.table.assignAll (enteringTokens config state call)
        extrasCnt := extrasCnt
        moduleDisabled := moduleDisabled } := by
  unfold enter at entered
  unfold enteringTokens
  cases first : state.isFirstRun with
  | false =>
      rw [first, if_neg (by decide)] at entered
      cases entered
      refine ⟨.inl rfl, state.extrasCnt, state.moduleDisabled, ?_⟩
      rw [if_neg (by decide), ← first]
      rfl
  | true =>
      rw [first, if_pos rfl] at entered
      rw [if_pos rfl]
      exact firstRun_cases entered

theorem enter_table {config : Config} {call : Call} {afl : Afl} {state started : State}
    (entered : enter config state call = some (afl, started)) :
    started.table = state.table.assignAll (enteringTokens config state call) ∧
      started.fileMapping = state.fileMapping := by
  obtain ⟨-, extrasCnt, moduleDisabled, rfl⟩ := enter_cases entered
  exact ⟨rfl, rfl⟩

/-- The state in which an input is looked up. -/
def ready (config : Config) (afl : Afl) (started : State) : State :=
  { learnDictionary config afl started with createFromThinAir := false }

theorem ready_table (config : Config) (afl : Afl) (started : State) :
    (ready config afl started).table =
        started.table.assignAll (dictionaryTokens config afl started) ∧
      (ready config afl started).fileMapping = started.fileMapping := by
  unfold ready learnDictionary dictionaryTokens
  cases learns config started with
  | false => exact ⟨rfl, rfl⟩
  | true => exact ⟨rfl, rfl⟩

/-- The input without its comments. -/
def text (config : Config) (afl : Afl) : List UInt8 := config.trim afl.queueCur.testcase

/-- The tokens of the input. -/
def Extracts (config : Config) (afl : Afl) (tokens : List Token) : Prop :=
  extractTokens ((text config afl).length + 1) (text config afl) = some tokens

instance (config : Config) (afl : Afl) (tokens : List Token) :
    Decidable (Extracts config afl tokens) := inferInstanceAs (Decidable (_ = _))

/-- No structure is made from thin air. -/
def NotThin (config : Config) (afl : Afl) (started : State) : Prop :=
  (learnDictionary config afl started).createFromThinAir = true →
    ¬ createsFromThinAir afl (learnDictionary config afl started)

/-- The input is analyzed, and these are its tokens. -/
structure Analyzes (config : Config) (afl : Afl) (fn : FileName) (started : State)
    (tokens : List Token) : Prop where
  notThin : NotThin config afl started
  unmapped : started.fileMapping fn = none
  suited : unsuitable afl = false
  extracts : Extracts config afl tokens

/-- What a call does to the state behind `first_run`. -/
inductive Selected (config : Config) (afl : Afl) (fn : FileName) (started : State) :
    State → Prop where
  | skipped (skip : skips config afl started = true) :
      Selected config afl fn started { started with s := none }
  | created (noSkip : skips config afl started = false)
      (thin : (learnDictionary config afl started).createFromThinAir = true)
      (stored : Structure) :
      Selected config afl fn started ((learnDictionary config afl started).store fn stored)
  | found (noSkip : skips config afl started = false) (entry : Option Structure)
      (mapped : started.fileMapping fn = some entry) :
      Selected config afl fn started { ready config afl started with s := entry }
  | rejected (noSkip : skips config afl started = false)
      (unmapped : started.fileMapping fn = none) (unsuited : unsuitable afl = true) :
      Selected config afl fn started ((ready config afl started).reject fn)
  | analyzed (noSkip : skips config afl started = false) (tokens : List Token)
      (analyzes : Analyzes config afl fn started tokens) :
      Selected config afl fn started
        (((ready config afl started).countWhitespace (text config afl)).storeTokens fn tokens)

theorem lookup_selected {config : Config} {afl : Afl} {fn : FileName} {started : State}
    (noSkip : skips config afl started = false) (notThin : NotThin config afl started) :
    Returns True (Selected config afl fn started)
      (lookup config afl fn (ready config afl started)) := by
  have mapping := (ready_table config afl started).2
  unfold lookup
  cases mapped : (ready config afl started).fileMapping fn with
  | some entry =>
      rw [mapping] at mapped
      exact Returns.pure (.found noSkip entry mapped)
  | none =>
      rw [mapping] at mapped
      refine Returns.ite ?_ ?_
      · intro unsuited
        exact Returns.pure (.rejected noSkip mapped unsuited)
      · intro suited
        refine Returns.bind (Returns.fetched _) ?_
        intro tokens extracts
        exact Returns.pure
          (.analyzed noSkip tokens ⟨notThin, mapped, by simpa using suited, extracts⟩)

theorem selectInput_selected (config : Config) (afl : Afl) (fn : FileName) (started : State) :
    Returns True (Selected config afl fn started) (selectInput config afl fn started) := by
  refine Returns.ite ?_ ?_
  · intro skip
    exact Returns.pure (.skipped skip)
  · intro noSkip
    rw [Bool.not_eq_true] at noSkip
    unfold structureOf
    cases thin : (learnDictionary config afl started).createFromThinAir with
    | false =>
        have same : learnDictionary config afl started = ready config afl started := by
          unfold ready
          rw [← thin]
        rw [if_neg (by decide), same]
        exact lookup_selected noSkip fun isThin => by simp [thin] at isThin
    | true =>
        rw [if_pos rfl]
        split
        · next small =>
          refine Returns.bind (Returns.any _) ?_
          intro items _
          exact Returns.pure (.created noSkip thin _)
        · next large => exact lookup_selected noSkip fun _ => large

/-- What a call does to the state. -/
def Stepped (config : Config) (state : State) (call : Call) (after : State) : Prop :=
  ∃ afl started, enter config state call = some (afl, started) ∧
    Selected config afl call.filename started after

theorem aflCustomQueueGet_stepped (config : Config) (state : State) (call : Call) :
    Returns True (Stepped config state call) (aflCustomQueueGet config state call) := by
  refine Returns.bind (Returns.fetched _) ?_
  intro entered found
  refine (selectInput_selected config entered.1 call.filename entered.2).mono ?_
  intro after selected
  exact ⟨entered.1, entered.2, found, selected⟩

/-! ## The table after a call -/

theorem Extracts.covers {config : Config} {afl : Afl} {tokens : List Token}
    (extracts : Extracts config afl tokens) : Covers tokens (text config afl) := by
  obtain ⟨others, extracted, covers⟩ :=
    extractTokens_covers (Nat.lt_succ_self (text config afl).length)
  rw [Extracts, extracted] at extracts
  cases extracts
  exact covers

theorem storeTokens_table (state : State) (fn : FileName) (tokens : List Token) :
    (state.storeTokens fn tokens).table =
      if autotokensSizeMin ≤ tokens.length then (state.table.internAll tokens).1
      else state.table := by
  unfold State.storeTokens
  split
  · rfl
  · rfl

/-- One table holds the numbered tokens of another, and more. -/
def Table.Grows (table after : Table) : Prop :=
  ∀ names, table.Tracks names → ∃ more, after.Tracks (names ++ more)

namespace Table.Grows

theorem refl (table : Table) : table.Grows table := by
  intro names tracks
  exact ⟨[], by simpa using tracks⟩

theorem trans {first second third : Table} (start : first.Grows second)
    (rest : second.Grows third) : first.Grows third := by
  intro names tracks
  obtain ⟨more, tracksMore⟩ := start names tracks
  obtain ⟨evenMore, tracksAll⟩ := rest _ tracksMore
  exact ⟨more ++ evenMore, by simpa using tracksAll⟩

theorem assignAll (table : Table) (tokens : List Token) : table.Grows (table.assignAll tokens) :=
  fun _ tracks => ⟨tokens, tracks.assignAll tokens⟩

theorem internAll (table : Table) (tokens : List Token) :
    table.Grows (table.internAll tokens).1 :=
  fun _ tracks => ⟨table.added tokens, tracks.internAll tokens⟩

end Table.Grows

theorem Selected.grows {config : Config} {afl : Afl} {fn : FileName} {started after : State}
    (selected : Selected config afl fn started after) : started.table.Grows after.table := by
  have learns : started.table.Grows (ready config afl started).table := by
    rw [(ready_table config afl started).1]
    exact Table.Grows.assignAll _ _
  cases selected with
  | skipped => exact Table.Grows.refl _
  | created noSkip thin stored => exact learns
  | found noSkip entry mapped => exact learns
  | rejected => exact learns
  | analyzed noSkip tokens analyzes =>
      rw [storeTokens_table]
      split
      · exact learns.trans (Table.Grows.internAll _ _)
      · exact learns

theorem Stepped.grows {config : Config} {state after : State} {call : Call}
    (stepped : Stepped config state call after) : state.table.Grows after.table := by
  obtain ⟨afl, started, entered, selected⟩ := stepped
  have start : state.table.Grows started.table := by
    rw [(enter_table entered).1]
    exact Table.Grows.assignAll _ _
  exact start.trans selected.grows

/-! ## Runs -/

theorem runCalls_cons {config : Config} {state after : State} {call : Call}
    {choices reading : List Nat}
    (called : aflCustomQueueGet config state call choices = .ok (after, reading))
    (calls : List Call) :
    runCalls config state (call :: calls) choices = runCalls config after calls reading := by
  rw [runCalls, Draws.bind_ok called]

theorem runCalls_grows (config : Config) (state : State) (calls : List Call) :
    Returns True (fun after => state.table.Grows after.table) (runCalls config state calls) := by
  induction calls generalizing state with
  | nil => exact Returns.pure (Table.Grows.refl _)
  | cons call calls ih =>
      refine Returns.bind (aflCustomQueueGet_stepped config state call) ?_
      intro after stepped
      exact (ih after).mono fun last grows => stepped.grows.trans grows

theorem aflCustomInit_tracks (config : Config) :
    (aflCustomInit config).table.Tracks initialTokens := by
  have tracks := Table.tracks_empty.assignAll initialTokens
  rwa [List.nil_append] at tracks

/-- In every state that is reached, the table numbers the tokens of a list that starts with the
initial ones. -/
theorem runCalls_tracks {config : Config} {calls : List Call} {choices rest : List Nat}
    {state : State} (reached : runCalls config (aflCustomInit config) calls choices =
      .ok (state, rest)) :
    ∃ more, state.table.Tracks (initialTokens ++ more) :=
  (runCalls_grows config (aflCustomInit config) calls).of_ok reached _ (aflCustomInit_tracks config)

end SbFuzz.CustomMutators.Autotokens
