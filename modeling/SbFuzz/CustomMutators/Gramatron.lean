import Mathlib.Algebra.Ring.Nat
import Mathlib.Logic.Function.Basic
import SbFuzz.Systems.Draws
import SbFuzz.Systems.Machine

/-! Gramatron (`custom_mutators/gramatron`): walks through a grammar automaton,
the mutations that cut and join them, and the files that keep them. -/

set_option autoImplicit false

namespace SbFuzz.CustomMutators.Gramatron

open SbFuzz.Systems SbFuzz.Systems.Draws

/-! ## Automata -/

/-- A C string without its terminator. -/
abbrev Term := List UInt8

structure Trigger where
  dest : Nat
  term : Term
  noNul : 0 ∉ term

/-- What `create_pda` reads: the triggers of the states, of which the final one
may have none. -/
structure Automaton where
  pda : List (List Trigger)
  initState : Nat
  finalState : Nat
  init_ne_final : initState ≠ finalState
  init_lt : initState < pda.length
  dest_lt : ∀ triggers ∈ pda, ∀ trigger ∈ triggers,
    trigger.dest = finalState ∨ trigger.dest < pda.length
  hasTrigger : ∀ (state : Nat) (triggers : List Trigger), pda[state]? = some triggers →
    state ≠ finalState → triggers ≠ []

/-! ## Walks -/

structure Terminal where
  state : Nat
  triggerIdx : Nat
  symbolLen : Nat
  symbol : Term

/-- `Array`: `used` is the number of terminals, `size` the room for them. -/
structure Walk where
  size : Nat
  inputlen : Nat
  start : List Terminal

def Walk.used (walk : Walk) : Nat := walk.start.length

def initSize : Nat := 100

/-- `sizeof(terminal)`. -/
def terminalSize : Nat := 24

def initArray (initialSize : Nat) : Walk := ⟨initialSize, 0, []⟩

def Walk.insertArray (a : Walk) (term : Terminal) : Walk :=
  { size := if a.used = a.size then a.size * terminalSize else a.size
    inputlen := a.inputlen + term.symbolLen
    start := a.start ++ [term] }

/-- The loops that insert one terminal after the other. -/
def Walk.insertAll (a : Walk) (terms : List Terminal) : Walk := terms.foldl Walk.insertArray a

def slice (input : Walk) (idx : Nat) : Walk :=
  (initArray input.size).insertAll (input.start.take idx)

/-- With `start` included and `stop` excluded. -/
def carve (input : Walk) (start stop : Nat) : Walk :=
  (initArray input.size).insertAll ((input.start.take stop).drop start)

/-- The feature `len` times behind the prefix. -/
def concatPrefixFeature (pre feature : Walk) : Nat → Walk
  | 0 => pre
  | len + 1 => concatPrefixFeature (pre.insertAll feature.start) feature len

def spliceGF (orig toSplice : Walk) (idx : Nat) : Walk :=
  orig.insertAll (toSplice.start.drop idx)

/-- The loop of `gen_input` from `curr_state` on; every round draws a trigger. -/
def genFrom (aut : Automaton) : Nat → Walk → Draws Walk
  | currState, input, [] =>
      if currState = aut.finalState then .ok (input, []) else .error .outOfChoices
  | currState, input, choice :: choices =>
      if currState = aut.finalState then .ok (input, choice :: choices)
      else
        match aut.pda[currState]? with
        | none => .error .crashed
        | some triggers =>
            let randval := if triggers.length ≤ 1 then 0 else choice % triggers.length
            match triggers[randval]? with
            | none => .error .crashed
            | some trigger =>
                genFrom aut trigger.dest
                  (input.insertArray ⟨currState, randval, trigger.term.length, trigger.term⟩)
                  choices

/-- `gen_input(pda, NULL)`. -/
def genInput (aut : Automaton) : Draws Walk := genFrom aut aut.initState (initArray initSize)

/-! ## State maps -/

/-- The positions of every state, in order. -/
def statemap (numstates : Nat) (walk : Walk) : List (List Nat) :=
  (List.range walk.used).foldl (fun map offset =>
    match walk.start[offset]? with
    | some term => map.modify term.state (· ++ [offset])
    | none => map) (List.replicate numstates [])

/-- The states that occur more than once. -/
def recurIdx (map : List (List Nat)) : List (List Nat) := map.filter (2 ≤ ·.length)

/-! ## Mutators -/

def performRandomMutation (aut : Automaton) (input : Walk) : Draws Walk := do
  let idx ← below input.used
  let term ← fetch input.start[idx]?
  genFrom aut term.state (slice input idx)

/-- A position of the original walk for each candidate's position that has one of
the same state. -/
def splicePairs (statemapOrig : List (List Nat)) : List Terminal → Nat → Draws (List (Nat × Nat))
  | [], _ => pure []
  | term :: terms, x => do
      let nums ← fetch statemapOrig[term.state]?
      if nums.length = 0 then splicePairs statemapOrig terms (x + 1)
      else
        let chosen ← below nums.length
        let origIdx ← fetch nums[chosen]?
        let pairs ← splicePairs statemapOrig terms (x + 1)
        pure ((origIdx, x) :: pairs)

def performSpliceOne (originput : Walk) (statemapOrig : List (List Nat)) (splicecand : Walk) :
    Draws Walk := do
  let pairs ← splicePairs statemapOrig splicecand.start 0
  let chosen ← below pairs.length
  let cand ← fetch pairs[chosen]?
  pure (spliceGF (slice originput cand.1) splicecand cand.2)

/-- `swap(&a[i], &a[j])`. -/
def swap (a : List Nat) (i j : Nat) : Draws (List Nat) := do
  let x ← fetch a[i]?
  let y ← fetch a[j]?
  pure ((a.set i y).set j x)

/-- The Fisher-Yates loop from index `i` down. -/
def shuffle : Nat → List Nat → Draws (List Nat)
  | 0, a => pure a
  | i + 1, a => do
      let j ← below (i + 2)
      let swapped ← swap a (i + 1) j
      shuffle i swapped

def getTwoIndices (recur : List Nat) : Draws (Nat × Nat) := do
  let shuffled ← shuffle (recur.length - 1) recur
  let firstIdx ← fetch shuffled[0]?
  let secondIdx ← fetch shuffled[1]?
  pure (firstIdx, secondIdx)

def recurThreshold : Nat := 6

def doMult (input : Walk) (recur : List (List Nat)) : Draws Walk := do
  let idx ← below recur.length
  let recurMap ← fetch recur[idx]?
  let (firstIdx, secondIdx) ← getTwoIndices recurMap
  let feature :=
    if firstIdx < secondIdx then carve input firstIdx secondIdx
    else carve input secondIdx firstIdx
  let len ← below recurThreshold
  pure (spliceGF (concatPrefixFeature (slice input firstIdx) feature len) input secondIdx)

/-! ## Texts -/

def strcpy (s : Term) : List UInt8 := s ++ [0]

/-- Behind the string in the buffer, over its terminator. -/
def strcat (buffer : List UInt8) (s : Term) : List UInt8 := buffer.dropLast ++ s ++ [0]

/-- What is written into a buffer of `inputlen + 1` bytes. -/
def unparseWalk (input : Walk) : Draws (List UInt8) := do
  let first ← fetch input.start[0]?
  pure ((input.start.drop 1).foldl (fun unparsed term => strcat unparsed term.symbol)
    (strcpy first.symbol))

/-! ## Files -/

abbrev Name := List Char

/-- A terminal in a file, where the pointer to the symbol means nothing. -/
structure SavedTerminal where
  state : Nat
  triggerIdx : Nat
  symbolLen : Nat

structure SavedWalk where
  size : Nat
  inputlen : Nat
  start : List SavedTerminal

def Walk.saved (walk : Walk) : SavedWalk :=
  ⟨walk.size, walk.inputlen,
    walk.start.map fun term => ⟨term.state, term.triggerIdx, term.symbolLen⟩⟩

/-- The symbol that a state and a trigger index denote. -/
def relink (aut : Automaton) (term : SavedTerminal) : Option Terminal :=
  (aut.pda[term.state]?.bind (·[term.triggerIdx]?)).map fun trigger =>
    ⟨term.state, term.triggerIdx, term.symbolLen, trigger.term⟩

def parseInput (aut : Automaton) (saved : SavedWalk) : Draws Walk := do
  let start ← fetch (saved.start.mapM (relink aut))
  pure ⟨saved.size, saved.inputlen, start⟩

def autName (filename : Name) : Name := filename ++ ".aut".toList

/-! ## The custom mutator -/

structure Mutator where
  /-- Walks on disk. -/
  automatonFiles : Name → Option SavedWalk
  /-- Test cases on disk. -/
  queueFiles : Name → Option (List UInt8)
  mutatedWalk : Option Walk
  unparsedInput : List UInt8
  origWalk : Option Walk
  statemap : List (List Nat)
  recurIdx : List (List Nat)
  mutIdx : Nat

/-- `write_input`: a file that exists is left alone. -/
def writeInput (files : Name → Option SavedWalk) (input : Walk) (fn : Name) :
    Name → Option SavedWalk :=
  if (files fn).isSome then files else Function.update files fn (some input.saved)

/-- A missing file ends the program. -/
def readInput (aut : Automaton) (files : Name → Option SavedWalk) (fn : Name) : Draws Walk :=
  match files fn with
  | none => stop .exited
  | some saved => parseInput aut saved

def aflCustomQueueGet (aut : Automaton) (data : Mutator) (filename : Name) : Draws Mutator := do
  let walk ← readInput aut data.automatonFiles (autName filename)
  let map := statemap aut.pda.length walk
  pure { data with origWalk := some walk, statemap := map, recurIdx := recurIdx map }

def mutators : Nat := 4

/-- The mutation whose turn it is; `queue` are the file names in `queue_buf`. -/
def mutate (aut : Automaton) (data : Mutator) (queue : List Name) : Draws Walk :=
  if data.mutIdx = 0 then do
    let origWalk ← fetch data.origWalk
    performRandomMutation aut origWalk
  else if data.mutIdx = 1 ∧ data.recurIdx.length ≠ 0 then do
    let origWalk ← fetch data.origWalk
    doMult origWalk data.recurIdx
  else if data.mutIdx = 2 then do
    let tid ← below queue.length
    let fname ← fetch queue[tid]?
    let spliceCandidate ← readInput aut data.automatonFiles (autName fname)
    let origWalk ← fetch data.origWalk
    performSpliceOne origWalk data.statemap spliceCandidate
  else genInput aut

def aflCustomFuzz (aut : Automaton) (data : Mutator) (queue : List Name) : Draws Mutator := do
  let walk ← mutate aut data queue
  let unparsed ← unparseWalk walk
  pure { data with
    mutatedWalk := some walk
    unparsedInput := unparsed
    mutIdx := if data.mutIdx = mutators - 1 then 0 else data.mutIdx + 1 }

/-- A new entry keeps the last mutated walk; one of the initial inputs is
replaced by a generated one. -/
def aflCustomQueueNewEntry (aut : Automaton) (data : Mutator) (filenameNew : Name)
    (filenameOrig : Option Name) : Draws Mutator :=
  match filenameOrig with
  | some _ => do
      let walk ← fetch data.mutatedWalk
      pure { data with
        automatonFiles := writeInput data.automatonFiles walk (autName filenameNew) }
  | none => do
      let newInput ← genInput aut
      let files := writeInput data.automatonFiles newInput (autName filenameNew)
      let unparsed ← unparseWalk newInput
      if (data.queueFiles filenameNew).isNone then stop .exited
      else
        pure { data with
          automatonFiles := files
          queueFiles := Function.update data.queueFiles filenameNew (some unparsed) }

/-! ## Runs -/

inductive Call where
  | queueGet (filename : Name)
  | fuzz (queue : List Name)
  | queueNewEntry (filenameNew : Name) (filenameOrig : Option Name)

def Mutator.call (aut : Automaton) (data : Mutator) : Call → Draws Mutator
  | .queueGet filename => aflCustomQueueGet aut data filename
  | .fuzz queue => aflCustomFuzz aut data queue
  | .queueNewEntry filenameNew filenameOrig =>
      aflCustomQueueNewEntry aut data filenameNew filenameOrig

/-- `afl_custom_init`, with what is on disk. -/
def Mutator.init (automatonFiles : Name → Option SavedWalk)
    (queueFiles : Name → Option (List UInt8)) : Mutator :=
  ⟨automatonFiles, queueFiles, none, [], none, [], [], 0⟩

/-- Calls with their random choices; a call that does not return ends the run. -/
def gramatron (aut : Automaton) (automatonFiles : Name → Option SavedWalk)
    (queueFiles : Name → Option (List UInt8)) : Machine Mutator (Call × List Nat) where
  initial := .init automatonFiles queueFiles
  step data action := (data.call aut action.1 action.2).toOption.map Prod.fst

end SbFuzz.CustomMutators.Gramatron
