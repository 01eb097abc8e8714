import Mathlib.Algebra.Ring.Nat
import Mathlib.Logic.Function.Basic
import SbFuzz.Fuzzer.Dictionary
import SbFuzz.Systems.Draws

/-! The custom mutator `autotokens`: how it splits an input into tokens, and the numbers it
gives them. -/

set_option autoImplicit false

namespace SbFuzz.CustomMutators.Autotokens

open SbFuzz.Fuzzer SbFuzz.Systems SbFuzz.Systems.Draws

def u32 (n : Nat) : Nat := n % 0x100000000

def u64 (n : Nat) : Nat := n % 0x10000000000000000

def autotokensSizeMin : Nat := 8

def aflTxtMinLen : Nat := 12

def aflTxtMaxLen : Nat := 65535

def aflTxtMinPercent : Nat := 99

/-! ## Tokens and their ids -/

/-- `token_to_id`, where an unknown token has the id 0, `id_to_token`, where an unknown id has
the empty token, and how often `current_id` was incremented. -/
structure Table where
  tokenToId : Token → Nat
  idToToken : Nat → Token
  given : Nat

namespace Table

def currentId (table : Table) : Nat := u32 table.given

def empty : Table := ⟨fun _ => 0, fun _ => [], 0⟩

def assign (table : Table) (token : Token) : Table :=
  { tokenToId := Function.update table.tokenToId token table.currentId
    idToToken := Function.update table.idToToken table.currentId token
    given := table.given + 1 }

def assignAll (table : Table) (tokens : List Token) : Table := tokens.foldl assign table

def intern (table : Table) (token : Token) : Table × Nat :=
  if table.tokenToId token = 0 then (table.assign token, table.currentId)
  else (table, table.tokenToId token)

def internAll (table : Table) : List Token → Table × List Nat
  | [] => (table, [])
  | token :: tokens =>
      let interned := table.intern token
      let rest := interned.1.internAll tokens
      (rest.1, interned.2 :: rest.2)

theorem internAll_length (table : Table) (tokens : List Token) :
    (table.internAll tokens).2.length = tokens.length := by
  induction tokens generalizing table with
  | nil => rfl
  | cons token tokens ih => simp [internAll, ih]

end Table

def whitespaceTokens : List Token :=
  [[0x20], [0x09], [0x0a], [0x0d, 0x0a], [0x20, 0x0a], [0x20, 0x20], [0x09, 0x09], [0x0a, 0x0a],
    [0x0d, 0x0a, 0x0d, 0x0a], [0x20, 0x20, 0x20, 0x20], [0x09, 0x09, 0x09, 0x09],
    [0x0a, 0x0a, 0x0a, 0x0a]]

/-- `whitespace_ids`, which keeps the value of `current_id` behind the whitespace. -/
def whitespaceIds : Nat := whitespaceTokens.length

def apostrophe : UInt8 := 0x27

def initialTokens : List Token := whitespaceTokens ++ [[quote], [apostrophe]]

/-! ## Quoted strings -/

/-- The values 1 and 2 of `quote_type`. -/
inductive QuoteType where
  | double
  | single
  deriving DecidableEq

def quoteType? (c : UInt8) : Option QuoteType :=
  if c = quote then some .double else if c = apostrophe then some .single else none

/-- The cases of `my_search_string` that set `quote_type` to 0. -/
def endsQuote (quoteType : Option (QuoteType × Nat)) (c : UInt8) : Bool :=
  c = newline || c = 0x0d || c = 0 || (quoteType.isSome && !isPrint c)

/-- The loop of `my_search_string`, on the bytes from `cur` on. `previous` is the byte in front
of them, if that is not in front of `start`, and `quote_type` comes with `found_begin`; both
iterators are counted from `start`. -/
def searchLoop (previous : Option UInt8) (quoteType : Option (QuoteType × Nat)) (cur : Nat) :
    List UInt8 → Option (Nat × Nat)
  | [] => none
  | c :: rest =>
      match quoteType? c with
      | some type =>
          if previous = some backslash then searchLoop (some c) quoteType (cur + 1) rest
          else
            match quoteType with
            | none => searchLoop (some c) (some (type, cur)) (cur + 1) rest
            | some (opened, foundBegin) =>
                if opened = type then some (foundBegin, cur + 1)
                else searchLoop (some c) quoteType (cur + 1) rest
      | none =>
          if endsQuote quoteType c then searchLoop (some c) none (cur + 1) rest
          else searchLoop (some c) quoteType (cur + 1) rest

/-- `match_begin` and `match_end`. -/
def mySearchString (text : List UInt8) : Option (Nat × Nat) := searchLoop none none 0 text

/-! ## Tokens of a text -/

def startsIdentifier (c : UInt8) : Bool := isAlnum c || c = 0x24 || c = 0x5f

def continuesIdentifier (c : UInt8) : Bool := startsIdentifier c || c = 0x2e || c = 0x2f

/-- The token at the front of a text. The byte that terminates a string ends every run. -/
def frontToken : List UInt8 → Token
  | [] => []
  | c :: rest =>
      if isSpace c then (c :: rest).takeWhile isSpace
      else if startsIdentifier c then (c :: rest).takeWhile continuesIdentifier
      else [c]

/-- Both loops that take tokens from outside the quoted strings, until `found` is reached, so
many bytes from here. The runs do not look at `found`. Nothing stands for too little fuel. -/
def lexGap : Nat → Nat → List UInt8 → Option (List Token)
  | _, 0, _ => some []
  | 0, _ + 1, _ => none
  | fuel + 1, found + 1, text =>
      let token := frontToken text
      (lexGap fuel (found + 1 - token.length) (text.drop token.length)).map (token :: ·)

/-- The loop over the quoted strings and the one behind it. -/
def extractTokens : Nat → List UInt8 → Option (List Token)
  | 0, _ => none
  | fuel + 1, text =>
      match mySearchString text with
      | none => lexGap fuel text.length text
      | some (matchBegin, matchEnd) => do
          let gap ← lexGap fuel matchBegin text
          let tokens ← extractTokens fuel (text.drop matchEnd)
          return gap ++ (text.take matchEnd).drop matchBegin :: tokens

/-! ## The fuzzer around it -/

abbrev FileName := List UInt8

structure QueueEntry where
  testcase : List UInt8
  disabled : Bool
  isAscii : Bool
  favored : Bool

def QueueEntry.len (q : QueueEntry) : Nat := q.testcase.length

structure AutoExtra where
  data : List UInt8
  len : Nat
  data_length : data.length = 32
  len_le : len ≤ 32

structure Afl where
  customOnly : Bool
  cmplogMode : Bool
  queueBuf : List QueueEntry
  current : Nat
  current_lt : current < queueBuf.length
  activeItems : Nat
  extras : List Token
  extras_lt : extras.length < 0x100000000
  aExtras : List AutoExtra

def Afl.queueCur (afl : Afl) : QueueEntry := afl.queueBuf.get ⟨afl.current, afl.current_lt⟩

/-- `isascii(c) || isprint(c)` in the C locale. -/
def isAscii (c : UInt8) : Bool := c < 128

/-- What a `std::string` holds that is made of a `char *`. -/
def cString (memory : List UInt8) : Token := memory.takeWhile (· ≠ 0)

/-- The strings that the loop over `extras` adds, from an index on. -/
def learnableExtras (extras : List Token) : List Token :=
  (extras.filter fun extra => extra.all isAscii).map cString

/-- The fields `len` and `hit_cnt` lie behind `data`, and `len` has a byte that is zero. -/
def learnableAutoExtras (aExtras : List AutoExtra) : List Token :=
  (aExtras.filter fun extra => (extra.data.take extra.len).all isAscii).map fun extra =>
    cString (extra.data ++ [UInt8.ofNat extra.len, 0, 0, 0])

/-! ## The state of the mutator -/

/-- A structure that is kept for an input has eight items at least. -/
structure Structure where
  items : List Nat
  large : autotokensSizeMin ≤ items.length

/-- What the environment variables set. `trim` removes the comments, by one of two regular
expressions. -/
structure Config where
  autoDisable : Bool
  onlyFav : Bool
  learnDictionaryTokens : Nat
  createFromThinAir : Bool
  changeMin : Nat
  changeMax : Nat
  trim : List UInt8 → List UInt8

structure State where
  isFirstRun : Bool
  learnState : Nat
  moduleDisabled : Bool
  createFromThinAir : Bool
  table : Table
  validStructures : Nat
  extrasCnt : Nat
  aExtrasCnt : Nat
  allSpaces : Nat
  allTabs : Nat
  allLf : Nat
  allWs : Nat
  /-- A file that was rejected is mapped to no structure. -/
  fileMapping : FileName → Option (Option Structure)
  idMapping : Nat → Option Structure
  s : Option Structure

def aflCustomInit (config : Config) : State :=
  { isFirstRun := true
    learnState := 0
    moduleDisabled := false
    createFromThinAir := config.createFromThinAir
    table := Table.empty.assignAll initialTokens
    validStructures := 0
    extrasCnt := 0
    aExtrasCnt := 0
    allSpaces := 0
    allTabs := 0
    allLf := 0
    allWs := 0
    fileMapping := fun _ => none
    idMapping := fun _ => none
    s := none }

/-! ## The first run -/

def isTextual (testcase : List UInt8) : Bool :=
  testcase.length * aflTxtMinPercent / 100 ≤ testcase.countP isAscii

def countsAsSeed (q : QueueEntry) : Bool :=
  !q.disabled && autotokensSizeMin ≤ q.len && q.len ≤ aflTxtMaxLen

def markAscii (q : QueueEntry) : QueueEntry :=
  if countsAsSeed q && isTextual q.testcase then { q with isAscii := true } else q

def Afl.markAscii (afl : Afl) : Afl :=
  { afl with
    queueBuf := afl.queueBuf.map Autotokens.markAscii
    current_lt := by simpa using afl.current_lt }

/-- Whether so few of all are valid that the module is disabled. -/
def tooFew (valid all : Nat) : Bool := u32 (valid * 100) / all ≤ 70

/-- The only seed is too short to look at, and the dictionary is looked at instead. -/
def looksAtDictionary (config : Config) (afl : Afl) : Bool :=
  !afl.customOnly && config.autoDisable &&
    (afl.activeItems = 1 && afl.queueCur.len < aflTxtMinLen) && 8 < afl.extras.length

def firstRunTokens (config : Config) (afl : Afl) (state : State) : List Token :=
  if looksAtDictionary config afl then learnableExtras (afl.extras.drop state.extrasCnt) else []

/-- Nothing stands for the division by zero. -/
def firstRun (config : Config) (afl : Afl) (state : State) : Option (Afl × State) :=
  if afl.customOnly || !config.autoDisable then some (afl, state)
  else if afl.activeItems = 1 && afl.queueCur.len < aflTxtMinLen then
    if 8 < afl.extras.length then
      let tokens := firstRunTokens config afl state
      some (afl,
        { state with
          table := state.table.assignAll tokens
          extrasCnt := max state.extrasCnt afl.extras.length
          moduleDisabled := state.moduleDisabled || tooFew tokens.length afl.extras.length })
    else some (afl, { state with moduleDisabled := true })
  else
    let valid := afl.queueBuf.filter countsAsSeed
    let ascii := valid.filter fun q => isTextual q.testcase
    if valid = [] then none
    else
      some (afl.markAscii,
        { state with
          moduleDisabled := state.moduleDisabled || tooFew ascii.length valid.length })

/-! ## The structure of an input -/

def skips (config : Config) (afl : Afl) (state : State) : Bool :=
  state.moduleDisabled ||
    (!afl.customOnly && !state.createFromThinAir &&
      ((afl.cmplogMode && !afl.queueCur.isAscii) || (config.onlyFav && !afl.queueCur.favored)))

def learns (config : Config) (state : State) : Bool :=
  state.learnState < config.learnDictionaryTokens &&
    (state.validStructures ≠ 0 || state.createFromThinAir)

def dictionaryTokens (config : Config) (afl : Afl) (state : State) : List Token :=
  if learns config state then
    learnableExtras (afl.extras.drop state.extrasCnt) ++
      learnableAutoExtras (afl.aExtras.drop state.aExtrasCnt)
  else []

def learnDictionary (config : Config) (afl : Afl) (state : State) : State :=
  if learns config state then
    { state with
      learnState := if state.learnState = 0 then 1 else state.learnState
      table := state.table.assignAll (dictionaryTokens config afl state)
      extrasCnt := max state.extrasCnt afl.extras.length
      aExtrasCnt := max state.aExtrasCnt afl.aExtras.length }
  else state

/-- A one-byte token that was drawn, or a blank, a tab or a linefeed. -/
def goodWhitespaceOrSingleval (state : State) : Draws Nat := do
  let i ← below state.table.currentId
  if (state.table.idToToken i).length = 1 then return i
  else
    let i ← below (u32 state.allWs)
    return if i < state.allSpaces then 0 else if i < state.allTabs then 1 else 2

/-- The loop that creates a structure from thin air, for so many items. -/
def thinAir (state : State) (prev : Option Nat) :
    (cnt : Nat) → Draws { items : List Nat // cnt ≤ items.length }
  | 0 => pure ⟨[], Nat.le_refl 0⟩
  | cnt + 1 => do
      let item ← below state.table.currentId
      let isLong := fun id => 1 < (state.table.idToToken id).length
      if isLong item ∧ prev.any (fun id => isLong id) then
        let between ← goodWhitespaceOrSingleval state
        let rest ← thinAir state (some item) cnt
        return ⟨between :: item :: rest.1, by simp only [List.length_cons]; omega⟩
      else
        let rest ← thinAir state (some item) cnt
        return ⟨item :: rest.1, by simp only [List.length_cons]; omega⟩

def createsFromThinAir (afl : Afl) (state : State) : Prop :=
  whitespaceIds + 6 < state.table.currentId ∧ afl.activeItems = 1 ∧
    afl.queueCur.len < aflTxtMinLen

instance (afl : Afl) (state : State) : Decidable (createsFromThinAir afl state) :=
  inferInstanceAs (Decidable (_ ∧ _ ∧ _))

def State.store (state : State) (fn : FileName) (stored : Structure) : State :=
  { state with
    fileMapping := Function.update state.fileMapping fn (some (some stored))
    idMapping := Function.update state.idMapping state.validStructures (some stored)
    validStructures := u32 (state.validStructures + 1)
    s := some stored }

def State.reject (state : State) (fn : FileName) : State :=
  { state with
    fileMapping := Function.update state.fileMapping fn (some none)
    s := none }

def State.countWhitespace (state : State) (input : List UInt8) : State :=
  let allSpaces := u64 (state.allSpaces + input.count 0x20)
  let allTabs := u64 (state.allTabs + input.count 0x09)
  let allLf := u64 (state.allLf + input.count newline)
  { state with
    allSpaces := allSpaces
    allTabs := allTabs
    allLf := allLf
    allWs := u64 (allSpaces + allTabs + allLf) }

/-- The test case is too short, too long or not text. -/
def unsuitable (afl : Afl) : Bool :=
  afl.queueCur.len < aflTxtMinLen || aflTxtMaxLen < afl.queueCur.len ||
    (!afl.cmplogMode && !isTextual afl.queueCur.testcase)

def State.storeTokens (state : State) (fn : FileName) (tokens : List Token) : State :=
  if enough : autotokensSizeMin ≤ tokens.length then
    let interned := state.table.internAll tokens
    { state with table := interned.1 }.store fn
      ⟨interned.2, by rw [Table.internAll_length]; exact enough⟩
  else state.reject fn

def analyze (config : Config) (afl : Afl) (fn : FileName) (state : State) : Draws State :=
  if unsuitable afl then pure (state.reject fn)
  else do
    let input := config.trim afl.queueCur.testcase
    let tokens ← fetch (extractTokens (input.length + 1) input)
    return (state.countWhitespace input).storeTokens fn tokens

def lookup (config : Config) (afl : Afl) (fn : FileName) (state : State) : Draws State :=
  match state.fileMapping fn with
  | none => analyze config afl fn state
  | some entry => pure { state with s := entry }

theorem currentId_half {table : Table} (large : whitespaceIds + 6 < table.currentId)
    {items : List Nat} (long : table.currentId / 2 ≤ items.length) :
    autotokensSizeMin ≤ items.length := by
  have least : whitespaceIds + 6 = 18 := rfl
  have size : autotokensSizeMin = 8 := rfl
  omega

def structureOf (config : Config) (afl : Afl) (fn : FileName) (state : State) : Draws State :=
  if state.createFromThinAir then
    if small : createsFromThinAir afl state then do
      let items ← thinAir state none (state.table.currentId / 2)
      return state.store fn ⟨items.1, currentId_half small.1 items.2⟩
    else lookup config afl fn { state with createFromThinAir := false }
  else lookup config afl fn state

def selectInput (config : Config) (afl : Afl) (fn : FileName) (state : State) : Draws State :=
  if skips config afl state then pure { state with s := none }
  else structureOf config afl fn (learnDictionary config afl state)

/-- A call of `afl_custom_queue_get`: what the fuzzer holds then, and the name of the file. -/
structure Call where
  afl : Afl
  filename : FileName

def enter (config : Config) (state : State) (call : Call) : Option (Afl × State) :=
  if state.isFirstRun then firstRun config call.afl { state with isFirstRun := false }
  else some (call.afl, state)

def aflCustomQueueGet (config : Config) (state : State) (call : Call) : Draws State := do
  let (afl, state) ← fetch (enter config state call)
  selectInput config afl call.filename state

def runCalls (config : Config) (state : State) : List Call → Draws State
  | [] => pure state
  | call :: calls => do
      let state ← aflCustomQueueGet config state call
      runCalls config state calls

/-! `afl_custom_fuzz` of `autotokens`: the mutations of a structure, and the output made of it. -/

def autotokensSpliceMin : Nat := 4

def autotokensSpliceMax : Nat := 64

def autotokensMutMax : Nat := 27

/-! ## Changes of a structure -/

namespace Structure

def size (m : Structure) : Nat := m.items.length

def set (m : Structure) (pos item : Nat) : Structure :=
  ⟨m.items.set pos item, by rw [List.length_set]; exact m.large⟩

def insert (m : Structure) (pos : Nat) (items : List Nat) : Structure :=
  ⟨m.items.take pos ++ items ++ m.items.drop pos, by
    have large := m.large
    simp only [List.length_append, List.length_take, List.length_drop]
    omega⟩

def erase (m : Structure) (pos : Nat) (spare : autotokensSizeMin < m.size) : Structure :=
  ⟨m.items.eraseIdx pos, by
    have kept := List.le_length_eraseIdx m.items pos
    have length : m.size = m.items.length := rfl
    omega⟩

/-- Nothing stands for an item that is not there. -/
def overwrite (m : Structure) (dstOff : Nat) (items : List Nat) : Option Structure :=
  if inside : dstOff + items.length ≤ m.items.length then
    some ⟨m.items.take dstOff ++ items ++ m.items.drop (dstOff + items.length), by
      have large := m.large
      simp only [List.length_append, List.length_take, List.length_drop]
      omega⟩
  else none

def slice (src : Structure) (srcOff n : Nat) : Option (List Nat) :=
  if srcOff + n ≤ src.items.length then some ((src.items.drop srcOff).take n) else none

end Structure

/-! ## Mutations -/

/-- Whether the change of an item draws again: the same item, or one from the other side of
`whitespace_ids`, which counts as whitespace itself here. -/
def drawsAgain (curItem newItem : Nat) : Bool :=
  newItem = curItem || ((whitespaceIds < newItem && curItem ≤ whitespaceIds) ||
    (newItem ≤ whitespaceIds && whitespaceIds < curItem))

def changeItem (state : State) (m : Structure) : Draws Structure := do
  let pos ← below m.size
  let curItem ← fetch m.items[pos]?
  let newItem ← belowUntil state.table.currentId fun newItem => !drawsAgain curItem newItem
  return m.set pos newItem

def insertWhitespace (state : State) (m : Structure) : Draws Structure := do
  let newItem ← belowUntil state.table.currentId (· < whitespaceIds)
  let pos ← below (m.size + 1)
  return m.insert pos [newItem]

def splice (state : State) (m : Structure) : Draws Structure := do
  let strategy ← below 4
  let index ← below state.validStructures
  let src ← fetch (state.idMapping index)
  let srcOff ← below (src.size - autotokensSpliceMin)
  let randR := 1 + max autotokensSpliceMin (min autotokensSpliceMax (src.size - srcOff))
  if strategy = 0 then
    let dstOff ← below m.size
    let extra ← below (min autotokensSpliceMax (randR - autotokensSpliceMin))
    let items ← fetch (src.slice srcOff (autotokensSpliceMin + extra))
    return m.insert dstOff items
  else
    let dstOff ← below (m.size - autotokensSpliceMin)
    let extra ← below (min (autotokensSpliceMax - autotokensSpliceMin)
      (min (m.size - dstOff - autotokensSpliceMin) (src.size - srcOff - autotokensSpliceMin)))
    let items ← fetch (src.slice srcOff (autotokensSpliceMin + extra))
    fetch (m.overwrite dstOff items)

/-- The structure is left as it is if it is too small, and `max_rand` is lowered. -/
def eraseItem (m : Structure) (maxRand : Nat) : Draws (Structure × Nat) :=
  if spare : autotokensSizeMin < m.size then do
    let pos ← belowUntil m.size fun pos => whitespaceIds ≤ m.items.getD pos 0
    return (m.erase pos spare, maxRand)
  else return (m, maxRand - 4)

def mutate (state : State) (m : Structure) (maxRand : Nat) : Draws (Structure × Nat) := do
  let choice ← below maxRand
  if choice ≤ 9 then
    let m ← changeItem state m
    return (m, maxRand)
  else if choice ≤ 13 then
    let m ← insertWhitespace state m
    return (m, maxRand)
  else if choice ≤ 22 then
    let m ← splice state m
    return (m, maxRand)
  else eraseItem m maxRand

def mutateLoop (state : State) (m : Structure) (maxRand : Nat) : Nat → Draws Structure
  | 0 => pure m
  | rounds + 1 => do
      let (m, maxRand) ← mutate state m maxRand
      mutateLoop state m maxRand rounds

/-- The number of rounds. `cycles` is the product with the score of the input, rounded down. -/
def rounds (config : Config) (cycles : Nat) (m : Structure) : Nat :=
  min config.changeMax (max config.changeMin (min (m.size / 8) cycles))

/-! ## The output -/

inductive Piece where
  | token (id : Nat)
  | separator (id : Nat)
  deriving DecidableEq

def Piece.id : Piece → Nat
  | .token id => id
  | .separator id => id

/-- The loop that creates the output. The last token is appended without a look at the one in
front of it. -/
def outputLoop (state : State) (prevSize : Nat) (wasWhitespace : Bool) :
    List Nat → Draws (List Piece)
  | [] => pure []
  | [item] => pure [.token item]
  | item :: next :: items => do
      let thisSize := (state.table.idToToken item).length
      let isWhitespace : Bool := item < whitespaceIds
      if prevSize = 1 || wasWhitespace || thisSize = 1 || isWhitespace then
        let pieces ← outputLoop state thisSize isWhitespace (next :: items)
        return .token item :: pieces
      else
        let between ← goodWhitespaceOrSingleval state
        let pieces ← outputLoop state thisSize isWhitespace (next :: items)
        return .separator between :: .token item :: pieces

def Table.textOf (table : Table) (pieces : List Piece) : List UInt8 :=
  pieces.flatMap fun piece => table.idToToken piece.id

/-- What `afl_custom_fuzz` returns, with the mutated structure and the pieces of the output. -/
structure Fuzzed where
  mutated : Structure
  pieces : List Piece
  output : List UInt8
  mutatedSize : Nat

def aflCustomFuzz (config : Config) (cycles : Nat) (state : State) (maxSize : Nat) :
    Draws (Option Fuzzed) :=
  match state.s with
  | none => pure none
  | some s => do
      let m ← mutateLoop state s autotokensMutMax (rounds config cycles s)
      let pieces ← outputLoop state 1 true m.items
      let output := state.table.textOf pieces
      return some ⟨m, pieces, output, min (u32 output.length) maxSize⟩

end SbFuzz.CustomMutators.Autotokens
