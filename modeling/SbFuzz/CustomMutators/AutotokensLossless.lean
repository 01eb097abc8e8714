import Mathlib.Data.List.TakeWhile
import SbFuzz.CustomMutators.AutotokensTable

/-! What `autotokens` keeps of an input is the input without its comments, as long as no id is
given twice. -/

set_option autoImplicit false

namespace SbFuzz.CustomMutators.Autotokens

open SbFuzz.Fuzzer SbFuzz.Systems SbFuzz.Systems.Draws

/-- The text that a structure stands for. -/
def Table.unparse (table : Table) (items : List Nat) : List UInt8 :=
  (items.map table.idToToken).flatten

/-! ## What is stored -/

theorem markAscii_testcase (afl : Afl) :
    afl.markAscii.queueCur.testcase = afl.queueCur.testcase := by
  have marked : afl.markAscii.queueCur = Autotokens.markAscii afl.queueCur := by
    simp [Afl.queueCur, Afl.markAscii]
  rw [marked, Autotokens.markAscii]
  split
  · rfl
  · rfl

theorem enter_text {config : Config} {call : Call} {afl : Afl} {state started : State}
    (entered : enter config state call = some (afl, started)) :
    text config afl = text config call.afl := by
  rcases (enter_cases entered).1 with rfl | rfl
  · rfl
  · rw [text, text, markAscii_testcase]

/-- A call made this structure from an input that was not seen before. The flag stays set where
the structure came from thin air. -/
structure Analyzed (state : State) (call : Call) (after : State) (stored : Structure) : Prop where
  unmapped : state.fileMapping call.filename = none
  mapped : after.fileMapping call.filename = some (some stored)
  notThin : after.createFromThinAir = false

theorem storeTokens_mapped {state : State} {fn : FileName} {tokens : List Token}
    {stored : Structure}
    (mapped : (state.storeTokens fn tokens).fileMapping fn = some (some stored)) :
    (state.storeTokens fn tokens).table = (state.table.internAll tokens).1 ∧
      stored.items = (state.table.internAll tokens).2 := by
  unfold State.storeTokens at mapped ⊢
  split at mapped
  · next enough =>
    rw [dif_pos enough]
    simp only [State.store, Function.update_self, Option.some.injEq] at mapped
    exact ⟨rfl, by rw [← mapped]⟩
  · simp [State.reject] at mapped

theorem storeTokens_stored (state : State) (fn : FileName) {tokens : List Token}
    (enough : autotokensSizeMin ≤ tokens.length) :
    ∃ stored, (state.storeTokens fn tokens).fileMapping fn = some (some stored) := by
  unfold State.storeTokens
  rw [dif_pos enough]
  exact ⟨_, Function.update_self _ _ _⟩

theorem countWhitespace_table (state : State) (input : List UInt8) :
    (state.countWhitespace input).table = state.table := rfl

theorem Stepped.analyzed {config : Config} {state after : State} {call : Call}
    (stepped : Stepped config state call after) {stored : Structure}
    (analyzed : Analyzed state call after stored) :
    ∃ table tokens, state.table.Grows table ∧ Extracts config call.afl tokens ∧
      after.table = (table.internAll tokens).1 ∧ stored.items = (table.internAll tokens).2 := by
  obtain ⟨afl, started, entered, selected⟩ := stepped
  obtain ⟨tableStarted, mappingStarted⟩ := enter_table entered
  obtain ⟨tableReady, mappingReady⟩ := ready_table config afl started
  have unmapped : started.fileMapping call.filename = none := by
    rw [mappingStarted]
    exact analyzed.unmapped
  cases selected with
  | skipped =>
      have mapped := analyzed.mapped
      rw [unmapped] at mapped
      cases mapped
  | created noSkip thin other =>
      have flag : (learnDictionary config afl started).createFromThinAir = false :=
        analyzed.notThin
      rw [thin] at flag
      cases flag
  | found noSkip entry mapped =>
      rw [unmapped] at mapped
      cases mapped
  | rejected =>
      have mapped := analyzed.mapped
      simp [State.reject] at mapped
  | analyzed noSkip tokens analyzes =>
      obtain ⟨table, items⟩ := storeTokens_mapped analyzed.mapped
      refine ⟨(ready config afl started).table, tokens, ?_, ?_, table, items⟩
      · rw [tableReady, tableStarted]
        exact (Table.Grows.assignAll _ _).trans (Table.Grows.assignAll _ _)
      · have extracts := analyzes.extracts
        unfold Extracts at extracts ⊢
        rwa [enter_text entered] at extracts

/-- The tokens are found again in a table that has grown since. -/
theorem internAll_unparse {table after : Table} {names : List Token} (tracks : table.Tracks names)
    {tokens : List Token} (grows : (table.internAll tokens).1.Grows after)
    (few : after.given ≤ 0x100000000) :
    (table.internAll tokens).2.map after.idToToken = tokens := by
  obtain ⟨more, tracksAfter⟩ := grows _ (tracks.internAll tokens)
  have short := few
  rw [tracksAfter.given] at short
  exact (tracksAfter.numbers short).map_nameOf (tracks.internAll_ids tokens more short)

/-! ## Two inputs -/

/-- The tokens of an input that is analyzed are stored. -/
theorem aflCustomQueueGet_analyze {config : Config} {state started : State} {call : Call}
    {afl : Afl} {tokens : List Token}
    (entered : enter config state call = some (afl, started))
    (noSkip : skips config afl started = false)
    (notThin : (learnDictionary config afl started).createFromThinAir = false)
    (unmapped : started.fileMapping call.filename = none) (suited : unsuitable afl = false)
    (extracts : Extracts config afl tokens) (choices : List Nat) :
    aflCustomQueueGet config state call choices = .ok
      (((ready config afl started).countWhitespace (text config afl)).storeTokens
        call.filename tokens, choices) := by
  have same : learnDictionary config afl started = ready config afl started := by
    unfold ready
    rw [← notThin]
  have free : (ready config afl started).fileMapping call.filename = none := by
    rw [(ready_table config afl started).2]
    exact unmapped
  have scan : extractTokens ((config.trim afl.queueCur.testcase).length + 1)
      (config.trim afl.queueCur.testcase) = some tokens := extracts
  rw [aflCustomQueueGet, entered]
  change selectInput config afl call.filename started choices = _
  rw [selectInput, noSkip, if_neg (by decide), structureOf, notThin, if_neg (by decide), same,
    lookup, free]
  simp only [analyze, suited, scan]
  rfl

theorem assignAll_tokenToId {table : Table} {tokens : List Token} {token : Token}
    (absent : token ∉ tokens) :
    (table.assignAll tokens).tokenToId token = table.tokenToId token := by
  induction tokens generalizing table with
  | nil => rfl
  | cons first tokens ih =>
      have rest := @ih (table.assign first) fun member => absent (by simp [member])
      have different : token ≠ first := fun same => absent (by simp [same])
      exact rest.trans (Function.update_of_ne different _ _)

theorem assignAll_given (table : Table) (tokens : List Token) :
    (table.assignAll tokens).given = table.given + tokens.length := by
  induction tokens generalizing table with
  | nil => rfl
  | cons first tokens ih =>
      have rest := ih (table.assign first)
      have next : (table.assign first).given = table.given + 1 := rfl
      rw [next] at rest
      simp only [Table.assignAll, List.foldl_cons, List.length_cons] at rest ⊢
      omega

/-- Seven letters that tell the index. -/
def word (i : Nat) : Token := (List.range 7).map fun k => UInt8.ofNat (97 + i / 26 ^ k % 26)

def words (n : Nat) : List Token := (List.range n).map word

theorem mem_word {i : Nat} {c : UInt8} (member : c ∈ word i) : isAscii c = true ∧ c ≠ 0 := by
  obtain ⟨k, -, rfl⟩ := List.mem_map.mp member
  have letter := Nat.mod_lt (i / 26 ^ k) (show 0 < 26 by decide)
  generalize i / 26 ^ k % 26 = n at letter ⊢
  revert n
  decide

theorem learnableExtras_words (n : Nat) : learnableExtras (words n) = words n := by
  have ascii : (words n).filter (fun extra => extra.all isAscii) = words n := by
    rw [List.filter_eq_self]
    intro token member
    obtain ⟨i, -, rfl⟩ := List.mem_map.mp member
    exact List.all_eq_true.mpr fun c inWord => (mem_word inWord).1
  rw [learnableExtras, ascii]
  conv_rhs => rw [← List.map_id (words n)]
  apply List.map_congr_left
  intro token member
  obtain ⟨i, -, rfl⟩ := List.mem_map.mp member
  exact List.takeWhile_eq_self_iff.mpr fun c inWord => by simpa using (mem_word inWord).2

theorem words_length (n : Nat) : (words n).length = n := by simp [words]

theorem singleton_not_mem_words (n : Nat) (c : UInt8) : [c] ∉ words n := by
  intro member
  obtain ⟨i, -, same⟩ := List.mem_map.mp member
  have size := congrArg List.length same
  simp [word] at size

def semicolons : List UInt8 := List.replicate 12 0x3b

/-- `-;-;-;-;-;-;`. -/
def dashes : List UInt8 := (List.replicate 6 [0x2d, 0x3b]).flatten

def plainConfig : Config := ⟨false, false, 1, false, 8, 64, id⟩

/-- A fuzzer whose current input is this, and that has the first `n` words as a dictionary. -/
def aflOn (input : List UInt8) (n : Nat) (few : n < 0x100000000) : Afl :=
  { customOnly := false
    cmplogMode := false
    queueBuf := [⟨input, false, true, true⟩]
    current := 0
    current_lt := Nat.one_pos
    activeItems := 1
    extras := words n
    extras_lt := by rw [words_length]; exact few
    aExtras := [] }

theorem aflOn_extras (input : List UInt8) (n : Nat) (few : n < 0x100000000) :
    (aflOn input n few).extras = words n := rfl

theorem noWords_lt : 0 < 0x100000000 := by decide

theorem allWords_lt : 0xffffffff < 0x100000000 := by decide

def semicolonsCall : Call := ⟨aflOn semicolons 0 noWords_lt, [0x31]⟩

def dashesCall : Call := ⟨aflOn dashes 0xffffffff allWords_lt, [0x32]⟩

def semicolonTokens : List Token := List.replicate 12 [0x3b]

def dashTokens : List Token := (List.replicate 6 [[0x2d], [0x3b]]).flatten

/-- The state in which the first call looks the input up. -/
def initialState : State := { aflCustomInit plainConfig with isFirstRun := false }

def semicolonsState : State :=
  ((ready plainConfig semicolonsCall.afl initialState).countWhitespace semicolons).storeTokens
    semicolonsCall.filename semicolonTokens

def dashesState : State :=
  ((ready plainConfig dashesCall.afl semicolonsState).countWhitespace dashes).storeTokens
    dashesCall.filename dashTokens

theorem semicolons_called (choices : List Nat) :
    aflCustomQueueGet plainConfig (aflCustomInit plainConfig) semicolonsCall choices =
      .ok (semicolonsState, choices) :=
  aflCustomQueueGet_analyze rfl (by decide) (by decide) rfl (by decide) (by decide) choices

theorem dashes_called (choices : List Nat) :
    aflCustomQueueGet plainConfig semicolonsState dashesCall choices =
      .ok (dashesState, choices) :=
  aflCustomQueueGet_analyze rfl (by decide) (by decide) (by decide) (by decide) (by decide) choices

theorem dashes_tokens :
    dictionaryTokens plainConfig dashesCall.afl semicolonsState = words 0xffffffff := by
  have on : learns plainConfig semicolonsState = true := by decide
  have start : semicolonsState.extrasCnt = 0 := by decide
  have extras : dashesCall.afl.extras = words 0xffffffff :=
    aflOn_extras dashes 0xffffffff allWords_lt
  rw [dictionaryTokens, if_pos on, start, extras, List.drop_zero, learnableExtras_words]
  exact List.append_nil _

/-- `current_id` has the value again that it had when the semicolon got its id. -/
theorem dashes_currentId {table : Table}
    (learned : table = semicolonsState.table.assignAll (words 0xffffffff)) :
    table.currentId = 14 ∧ table.tokenToId [0x3b] = 14 ∧ table.tokenToId [0x2d] = 0 := by
  have given : semicolonsState.table.given = 15 := by decide
  have semicolon : semicolonsState.table.tokenToId [0x3b] = 14 := by decide
  have dash : semicolonsState.table.tokenToId [0x2d] = 0 := by decide
  refine ⟨?_, ?_, ?_⟩
  · rw [Table.currentId, learned, assignAll_given, words_length, given, u32]
  · rw [learned, assignAll_tokenToId (singleton_not_mem_words _ _)]
    exact semicolon
  · rw [learned, assignAll_tokenToId (singleton_not_mem_words _ _)]
    exact dash

theorem internAll_dashes {table : Table} (wrapped : table.currentId = 14)
    (known : table.tokenToId [0x3b] = 14) (unknown : table.tokenToId [0x2d] = 0) :
    table.internAll dashTokens = (table.assign [0x2d], List.replicate 12 14) := by
  have dash : (table.assign [0x2d]).tokenToId [0x2d] = 14 := by
    simp [Table.assign, wrapped]
  have semicolon : (table.assign [0x2d]).tokenToId [0x3b] = 14 := by
    simp [Table.assign, known]
  have first : table.intern [0x2d] = (table.assign [0x2d], 14) := by
    simp [Table.intern, unknown, wrapped]
  have again : (table.assign [0x2d]).intern [0x2d] = (table.assign [0x2d], 14) := by
    simp [Table.intern, dash]
  have other : (table.assign [0x2d]).intern [0x3b] = (table.assign [0x2d], 14) := by
    simp [Table.intern, semicolon]
  simp only [dashTokens, List.replicate, List.flatten_cons, List.flatten_nil, List.cons_append,
    List.nil_append, Table.internAll, first, again, other]

/-! ## The text of a structure -/

/-- The scan of a text ends, no token is empty, and the tokens make up the text. What a call
stores of an input are the tokens of its text, now and after any later calls, as long as no
more than 2^32 ids were given. -/
theorem stored_lossless :
    (∀ (text : List UInt8) (fuel : Nat), text.length < fuel →
      ∃ tokens, extractTokens fuel text = some tokens ∧ Covers tokens text) ∧
    ∀ (config : Config) (before later : List Call) (call : Call)
      (choices reading analyzing rest : List Nat) (state analyzed after : State)
      (stored : Structure),
      runCalls config (aflCustomInit config) before choices = .ok (state, reading) →
      aflCustomQueueGet config state call reading = .ok (analyzed, analyzing) →
      Analyzed state call analyzed stored →
      runCalls config analyzed later analyzing = .ok (after, rest) →
      after.table.given ≤ 0x100000000 →
      ∃ tokens, Extracts config call.afl tokens ∧
        stored.items.map after.table.idToToken = tokens ∧
        after.table.unparse stored.items = text config call.afl := by
  refine ⟨fun text fuel enough => extractTokens_covers enough, ?_⟩
  intro config before later call choices reading analyzing rest state analyzed after stored
    reached called isAnalyzed continued few
  obtain ⟨more, tracks⟩ := runCalls_tracks reached
  have stepped := (aflCustomQueueGet_stepped config state call).of_ok called
  obtain ⟨table, tokens, grows, extracts, tableAfter, items⟩ := stepped.analyzed isAnalyzed
  obtain ⟨learned, tracksTable⟩ := grows _ tracks
  have growsLater : (table.internAll tokens).1.Grows after.table := by
    rw [← tableAfter]
    exact (runCalls_grows config analyzed later).of_ok continued
  have same : stored.items.map after.table.idToToken = tokens := by
    rw [items]
    exact internAll_unparse tracksTable growsLater few
  refine ⟨tokens, extracts, same, ?_⟩
  rw [Table.unparse, same]
  exact extracts.covers.1

theorem stored_lossless_semicolons : ∃ stored,
    Analyzed (aflCustomInit plainConfig) semicolonsCall semicolonsState stored ∧
    semicolonsState.table.unparse stored.items = text plainConfig semicolonsCall.afl := by
  obtain ⟨stored, mapped⟩ := storeTokens_stored
    ((ready plainConfig semicolonsCall.afl initialState).countWhitespace semicolons)
    semicolonsCall.filename (show autotokensSizeMin ≤ semicolonTokens.length by decide)
  have analyzed : Analyzed (aflCustomInit plainConfig) semicolonsCall semicolonsState stored :=
    ⟨rfl, mapped, by decide⟩
  obtain ⟨tokens, -, -, same⟩ := stored_lossless.2 plainConfig [] [] semicolonsCall [] [] [] []
    (aflCustomInit plainConfig) semicolonsState semicolonsState stored rfl (semicolons_called [])
    analyzed rfl (by decide)
  exact ⟨stored, analyzed, same⟩

/-- After `;;;;;;;;;;;;` and a dictionary of 2^32 - 1 words, the structure of `-;-;-;-;-;-;` stands
for twelve dashes. -/
theorem stored_lossy : ∃ stored,
    runCalls plainConfig (aflCustomInit plainConfig) [semicolonsCall] [] =
      .ok (semicolonsState, []) ∧
    aflCustomQueueGet plainConfig semicolonsState dashesCall [] = .ok (dashesState, []) ∧
    Analyzed semicolonsState dashesCall dashesState stored ∧
    dashesState.table.unparse stored.items ≠ text plainConfig dashesCall.afl := by
  obtain ⟨stored, mapped⟩ := storeTokens_stored
    ((ready plainConfig dashesCall.afl semicolonsState).countWhitespace dashes)
    dashesCall.filename (show autotokensSizeMin ≤ dashTokens.length by decide)
  obtain ⟨table, items⟩ := storeTokens_mapped mapped
  have learned : ((ready plainConfig dashesCall.afl semicolonsState).countWhitespace dashes).table =
      semicolonsState.table.assignAll (words 0xffffffff) := by
    rw [countWhitespace_table, (ready_table plainConfig dashesCall.afl semicolonsState).1,
      dashes_tokens]
  obtain ⟨wrapped, known, unknown⟩ := dashes_currentId learned
  rw [internAll_dashes wrapped known unknown] at table items
  refine ⟨stored, ?_, dashes_called [], ⟨by decide, mapped, by decide⟩, ?_⟩
  · rw [runCalls_cons (semicolons_called [])]
    rfl
  · have dash : dashesState.table.idToToken 14 = [0x2d] := by
      rw [dashesState, table]
      simp only [Table.assign, wrapped, Function.update_self]
    rw [Table.unparse, items, List.map_replicate, dash]
    decide

end SbFuzz.CustomMutators.Autotokens
