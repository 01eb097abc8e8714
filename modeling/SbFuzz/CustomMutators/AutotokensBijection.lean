import Mathlib.Data.List.Dedup
import SbFuzz.CustomMutators.AutotokensLossless

/-! When ids and tokens of `autotokens` correspond one to one, and the whitespace has the lowest
ids. -/

set_option autoImplicit false

namespace SbFuzz.CustomMutators.Autotokens

open SbFuzz.Fuzzer SbFuzz.Systems SbFuzz.Systems.Draws

/-! ## The correspondence -/

structure Table.Bijective (table : Table) : Prop where
  injective : ∀ i < table.currentId, ∀ j < table.currentId,
    table.idToToken i = table.idToToken j → i = j
  tokenToId_idToToken : ∀ i < table.currentId, table.tokenToId (table.idToToken i) = i
  idToToken_tokenToId : ∀ token, table.tokenToId token ≠ 0 →
    table.tokenToId token < table.currentId ∧ table.idToToken (table.tokenToId token) = token
  whitespace : ∀ i < table.currentId, i < whitespaceIds ↔ table.idToToken i ∈ whitespaceTokens
  registered : ∀ token ∈ whitespaceTokens, table.tokenToId token < whitespaceIds ∧
    table.idToToken (table.tokenToId token) = token

/-- No token got two ids, and the ids did not start over. -/
structure Table.Distinct (table : Table) (names : List Token) : Prop where
  tracks : table.Tracks names
  nodup : names.Nodup
  few : table.given < 0x100000000

namespace Table.Distinct

variable {table : Table} {names : List Token}

theorem length_lt (distinct : table.Distinct names) : names.length < 0x100000000 := by
  rw [← distinct.tracks.given]
  exact distinct.few

theorem numbers (distinct : table.Distinct names) :
    Numbers table.tokenToId table.idToToken names :=
  distinct.tracks.numbers (Nat.le_of_lt distinct.length_lt)

theorem currentId_eq (distinct : table.Distinct names) : table.currentId = names.length := by
  rw [Table.currentId, u32_eq distinct.few, distinct.tracks.given]

end Table.Distinct

theorem getElem?_whitespace {more : List Token} {i : Nat} {token : Token}
    (found : (initialTokens ++ more)[i]? = some token) (low : i < whitespaceIds) :
    token ∈ whitespaceTokens := by
  have front : (initialTokens ++ more)[i]? = whitespaceTokens[i]? := by
    rw [initialTokens, List.append_assoc, List.getElem?_append_left low]
  rw [front] at found
  exact List.mem_of_getElem? found

theorem whitespace_place {token : Token} (member : token ∈ whitespaceTokens)
    (more : List Token) :
    ∃ i < whitespaceIds, (initialTokens ++ more)[i]? = some token := by
  obtain ⟨i, low, isToken⟩ := List.getElem_of_mem member
  refine ⟨i, low, ?_⟩
  rw [initialTokens, List.append_assoc, List.getElem?_append_left low,
    List.getElem?_eq_getElem low, isToken]

theorem Table.Distinct.bijective {table : Table} {more : List Token}
    (distinct : table.Distinct (initialTokens ++ more)) : table.Bijective := by
  have numbers := distinct.numbers
  have nodup := distinct.nodup
  have size := distinct.currentId_eq
  constructor
  · intro i insideI j insideJ same
    rw [size] at insideI insideJ
    exact numbers.nameOf_injective nodup insideI insideJ same
  · intro i inside
    rw [size] at inside
    exact numbers.numberOf_nameOf nodup inside
  · intro token known
    have found := numbers.getElem?_numberOf known
    rw [size]
    exact ⟨(List.getElem?_eq_some_iff.mp found).1, numbers.nameOf_eq _ _ found⟩
  · intro i inside
    rw [size] at inside
    have found := numbers.getElem?_eq_nameOf inside
    constructor
    · exact getElem?_whitespace found
    · intro member
      obtain ⟨j, low, place⟩ := whitespace_place member more
      have same := numbers.numberOf_eq nodup place
      rw [numbers.numberOf_nameOf nodup inside] at same
      rwa [same]
  · intro token member
    obtain ⟨i, low, place⟩ := whitespace_place member more
    rw [numbers.numberOf_eq nodup place]
    exact ⟨low, numbers.nameOf_eq i token place⟩

/-! ## Tokens from a dictionary -/

/-- The tokens are new, all different, and there are enough ids for them. -/
structure Table.Admits (table : Table) (tokens : List Token) : Prop where
  nodup : tokens.Nodup
  new : ∀ token ∈ tokens, ∀ id < table.currentId, table.idToToken id ≠ token
  few : table.given + tokens.length < 0x100000000

theorem Table.Distinct.assignAll {table : Table} {names tokens : List Token}
    (distinct : table.Distinct names) (admits : table.Admits tokens) :
    (table.assignAll tokens).Distinct (names ++ tokens) := by
  refine ⟨distinct.tracks.assignAll tokens, ?_, ?_⟩
  · refine List.nodup_append.mpr ⟨distinct.nodup, admits.nodup, ?_⟩
    intro name inNames token inTokens same
    obtain ⟨id, inside, isName⟩ := List.getElem_of_mem inNames
    apply admits.new token inTokens id (by rwa [distinct.currentId_eq])
    rw [distinct.numbers.nameOf_eq id name (by rw [List.getElem?_eq_getElem inside, isName]), same]
  · rw [assignAll_given]
    exact admits.few

/-! ## Tokens from a text -/

def blank : Token := [0x20]

/-- The tokens that are looked up in vain, each one once. -/
def Table.newTokens (table : Table) (tokens : List Token) : List Token :=
  (tokens.filter fun token => table.tokenToId token = 0).dedup

/-- A single blank has the id 0, and is taken for a new token. -/
structure Table.AdmitsText (table : Table) (tokens : List Token) : Prop where
  noBlank : blank ∉ tokens
  few : table.given + (table.newTokens tokens).length < 0x100000000

theorem Table.mem_newTokens {table : Table} {tokens : List Token} {token : Token} :
    token ∈ table.newTokens tokens ↔ token ∈ tokens ∧ table.tokenToId token = 0 := by
  simp [newTokens]

theorem Table.newTokens_cons_seen {table : Table} {token : Token}
    (seen : table.tokenToId token ≠ 0) (tokens : List Token) :
    table.newTokens (token :: tokens) = table.newTokens tokens := by
  rw [newTokens, newTokens, List.filter_cons_of_neg (by simpa using seen)]

theorem Table.newTokens_cons_unseen {table : Table} {token : Token}
    (unseen : table.tokenToId token = 0) (nonzero : table.currentId ≠ 0) (tokens : List Token) :
    (table.newTokens (token :: tokens)).Perm (token :: (table.assign token).newTokens tokens) := by
  have later : (table.assign token).tokenToId token = table.currentId :=
    Function.update_self _ _ _
  have fresh : token ∉ (table.assign token).newTokens tokens := by
    rw [mem_newTokens, later]
    exact fun member => nonzero member.2
  refine (List.perm_ext_iff_of_nodup (List.nodup_dedup _) ?_).mpr ?_
  · exact List.nodup_cons.mpr ⟨fresh, List.nodup_dedup _⟩
  · intro other
    by_cases same : other = token
    · subst same
      simp [mem_newTokens, unseen]
    · have unchanged : (table.assign token).tokenToId other = table.tokenToId other :=
        Function.update_of_ne same _ _
      simp [mem_newTokens, same, unchanged]

/-- The loop over the tokens gives ids to the new ones. -/
theorem Table.added_perm {table : Table} {tokens : List Token} (started : 0 < table.given)
    (few : table.given + (table.newTokens tokens).length < 0x100000000) :
    (table.added tokens).Perm (table.newTokens tokens) := by
  induction tokens generalizing table with
  | nil => exact List.Perm.refl _
  | cons token tokens ih =>
      by_cases unseen : table.tokenToId token = 0
      · have nonzero : table.currentId ≠ 0 := by
          rw [currentId, u32_eq (by omega)]
          omega
        have perm := newTokens_cons_unseen unseen nonzero tokens
        have size := perm.length_eq
        rw [List.length_cons] at size
        have given : (table.assign token).given = table.given + 1 := rfl
        have rest := @ih (table.assign token) (by omega) (by omega)
        rw [added, if_pos unseen]
        exact (rest.cons token).trans perm.symm
      · rw [added, if_neg unseen, newTokens_cons_seen unseen]
        rw [newTokens_cons_seen unseen] at few
        exact ih started few

theorem Table.Distinct.internAll {table : Table} {names tokens : List Token}
    (distinct : table.Distinct names) (first : names[0]? = some blank)
    (admits : table.AdmitsText tokens) :
    (table.internAll tokens).1.Distinct (names ++ table.added tokens) := by
  have started : 0 < table.given := by
    rw [distinct.tracks.given]
    exact (List.getElem?_eq_some_iff.mp first).1
  have perm := Table.added_perm started admits.few
  have tracks := distinct.tracks.internAll tokens
  refine ⟨tracks, ?_, ?_⟩
  · refine List.nodup_append.mpr ⟨distinct.nodup, perm.nodup_iff.mpr (List.nodup_dedup _), ?_⟩
    intro name inNames token inAdded same
    obtain ⟨inText, unseen⟩ := Table.mem_newTokens.mp (perm.mem_iff.mp inAdded)
    have different : token ≠ blank := fun isBlank => admits.noBlank (isBlank ▸ inText)
    exact distinct.numbers.not_mem_of_zero first different unseen (same ▸ inNames)
  · have size := admits.few
    rw [tracks.given, List.length_append, perm.length_eq, ← distinct.tracks.given]
    exact size

/-! ## Calls -/

/-- What a call must not meet: a token from a dictionary that has an id, a blank that stands
alone in a text, more tokens than ids. -/
structure Fits (config : Config) (state : State) (call : Call) : Prop where
  entering : state.table.Admits (enteringTokens config state call)
  dictionary : ∀ afl started, enter config state call = some (afl, started) →
    skips config afl started = false → started.table.Admits (dictionaryTokens config afl started)
  analyzing : ∀ afl started tokens, enter config state call = some (afl, started) →
    skips config afl started = false → Analyzes config afl call.filename started tokens →
    autotokensSizeMin ≤ tokens.length → (ready config afl started).table.AdmitsText tokens

theorem Stepped.distinct {config : Config} {state after : State} {call : Call}
    (stepped : Stepped config state call after) (fits : Fits config state call)
    {more : List Token} (distinct : state.table.Distinct (initialTokens ++ more)) :
    ∃ evenMore, after.table.Distinct (initialTokens ++ evenMore) := by
  obtain ⟨afl, started, entered, selected⟩ := stepped
  have distinctStarted : started.table.Distinct
      (initialTokens ++ (more ++ enteringTokens config state call)) := by
    rw [(enter_table entered).1, ← List.append_assoc]
    exact distinct.assignAll fits.entering
  generalize more ++ enteringTokens config state call = known at distinctStarted
  have distinctReady : skips config afl started = false →
      (ready config afl started).table.Distinct
        (initialTokens ++ (known ++ dictionaryTokens config afl started)) := by
    intro noSkip
    rw [(ready_table config afl started).1, ← List.append_assoc]
    exact distinctStarted.assignAll (fits.dictionary afl started entered noSkip)
  cases selected with
  | skipped => exact ⟨known, distinctStarted⟩
  | created noSkip => exact ⟨_, distinctReady noSkip⟩
  | found noSkip => exact ⟨_, distinctReady noSkip⟩
  | rejected noSkip => exact ⟨_, distinctReady noSkip⟩
  | analyzed noSkip tokens analyzes =>
      rw [storeTokens_table]
      split
      · next enough =>
        have admits := fits.analyzing afl started tokens entered noSkip analyzes enough
        have interned := (distinctReady noSkip).internAll (by rfl) admits
        rw [List.append_assoc] at interned
        exact ⟨_, interned⟩
      · exact ⟨_, distinctReady noSkip⟩

/-! ## Runs -/

def AllFit (config : Config) : State → List Call → List Nat → Prop
  | _, [], _ => True
  | state, call :: calls, choices =>
      Fits config state call ∧
        ∀ after rest, aflCustomQueueGet config state call choices = .ok (after, rest) →
          AllFit config after calls rest

theorem runCalls_distinct {config : Config} {state last : State} {calls : List Call}
    {choices rest : List Nat} (fit : AllFit config state calls choices)
    (reached : runCalls config state calls choices = .ok (last, rest))
    {more : List Token} (distinct : state.table.Distinct (initialTokens ++ more)) :
    ∃ evenMore, last.table.Distinct (initialTokens ++ evenMore) := by
  induction calls generalizing state choices more with
  | nil =>
      cases reached
      exact ⟨more, distinct⟩
  | cons call calls ih =>
      obtain ⟨fits, fitLater⟩ := fit
      cases called : aflCustomQueueGet config state call choices with
      | error stop =>
          change Draws.bind (aflCustomQueueGet config state call) _ choices = _ at reached
          rw [Draws.bind, called] at reached
          cases reached
      | ok pair =>
          obtain ⟨after, reading⟩ := pair
          rw [runCalls_cons called] at reached
          have stepped := (aflCustomQueueGet_stepped config state call).of_ok called
          obtain ⟨_, distinctAfter⟩ := stepped.distinct fits distinct
          exact ih (fitLater after reading called) reached distinctAfter

theorem aflCustomInit_distinct (config : Config) :
    (aflCustomInit config).table.Distinct (initialTokens ++ []) :=
  ⟨aflCustomInit_tracks config, by decide, by rw [(aflCustomInit_tracks config).given]; decide⟩

/-- In every run whose calls all fit, ids and tokens correspond one to one in every state that is
reached. -/
theorem runCalls_bijective {config : Config} {calls : List Call} {choices rest : List Nat}
    {state : State} (fit : AllFit config (aflCustomInit config) calls choices)
    (reached : runCalls config (aflCustomInit config) calls choices = .ok (state, rest)) :
    state.table.Bijective := by
  obtain ⟨more, distinct⟩ := runCalls_distinct fit reached (aflCustomInit_distinct config)
  exact distinct.bijective

theorem semicolons_fits : Fits plainConfig (aflCustomInit plainConfig) semicolonsCall := by
  have entered : ∀ afl started,
      enter plainConfig (aflCustomInit plainConfig) semicolonsCall = some (afl, started) →
        afl = semicolonsCall.afl ∧ started = initialState := by
    intro afl started isEntered
    cases isEntered
    exact ⟨rfl, rfl⟩
  have nothing : ∀ table : Table, table.given = 14 → table.Admits [] :=
    fun table given => ⟨List.nodup_nil, fun _ member => by simp at member, by simp [given]⟩
  constructor
  · exact nothing _ (by decide)
  · intro afl started isEntered _
    obtain ⟨rfl, rfl⟩ := entered afl started isEntered
    exact nothing _ (by decide)
  · intro afl started tokens isEntered _ analyzes _
    obtain ⟨rfl, rfl⟩ := entered afl started isEntered
    have same : some tokens = some semicolonTokens :=
      analyzes.extracts.symm.trans (by decide)
    cases same
    exact ⟨by decide, by decide⟩

theorem runCalls_bijective_semicolons : semicolonsState.table.Bijective :=
  @runCalls_bijective plainConfig [semicolonsCall] [] [] semicolonsState
    ⟨semicolons_fits, fun _ _ _ => trivial⟩ (runCalls_cons (semicolons_called []) [])

/-- `a b a b a b `. -/
def blanks : List UInt8 := (List.replicate 3 [0x61, 0x20, 0x62, 0x20]).flatten

def blankTokens : List Token := (List.replicate 3 [[0x61], blank, [0x62], blank]).flatten

def blanksCall : Call := ⟨aflOn blanks 0 noWords_lt, [0x31]⟩

def blanksState : State :=
  ((ready plainConfig blanksCall.afl initialState).countWhitespace blanks).storeTokens
    blanksCall.filename blankTokens

/-- A text with single blanks: the blank has the ids 0 and 15. -/
theorem runCalls_not_bijective :
    runCalls plainConfig (aflCustomInit plainConfig) [blanksCall] [] = .ok (blanksState, []) ∧
      ¬ blanksState.table.Bijective := by
  have called : aflCustomQueueGet plainConfig (aflCustomInit plainConfig) blanksCall [] =
      .ok (blanksState, []) :=
    aflCustomQueueGet_analyze rfl (by decide) (by decide) rfl (by decide) (by decide) []
  constructor
  · exact runCalls_cons called []
  · intro bijective
    have same := bijective.injective 0 (by decide) 15 (by decide) (by decide)
    cases same

end SbFuzz.CustomMutators.Autotokens
