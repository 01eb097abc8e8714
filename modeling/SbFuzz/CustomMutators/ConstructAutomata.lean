import Mathlib.Data.List.TakeWhile
import SbFuzz.CustomMutators.Gramatron
import SbFuzz.Systems.Grammars

/-! How Gramatron makes an automaton out of a grammar in Greibach normal form:
`construct_automata.py`, which takes the stacks of leftmost derivations for
states, and `create_pda`, which loads what it writes. -/

set_option autoImplicit false

namespace SbFuzz.CustomMutators.ConstructAutomata

open Systems.Grammars

/-! ## Grammars -/

abbrev Name := String

/-- The tokens of a rule. A terminal is what stands between its quotes. -/
abbrev Rule (T : Type) := List (Symbol T Name)

variable {T : Type}

/-- A dictionary in the order in which its keys were added. -/
structure Grammar (T : Type) where
  entries : List (Name × List (Rule T))
  distinct : (entries.map Prod.fst).Nodup

namespace Grammar

def lookup (grammar : Grammar T) (name : Name) : Option (List (Rule T)) :=
  grammar.entries.lookup name

def pairs (grammar : Grammar T) : List (Name × Rule T) :=
  grammar.entries.flatMap fun entry => entry.2.map fun rule => (entry.1, rule)

/-- What the dictionary says of a nonterminal. -/
def rules (grammar : Grammar T) : Rules T Name := fun name rule => (name, rule) ∈ grammar.pairs

end Grammar

/-! ## The automaton -/

/-- An entry of `pda`. -/
structure Transition (T : Type) where
  trigger : Nat × Nat
  source : Nat
  dest : Nat
  terminal : T
  stack : List Name

/-- `state_stacks` has one entry for each state but the first, in order. -/
structure Construction (T : Type) where
  pda : List (Transition T)
  worklist : List (Nat × List Name)
  stateStacks : List (List Name)
  unexpandedRules : List (Name × Rule T)

def stackSymbol : Symbol T Name → Option Name
  | .nonterminal name => some name
  | .terminal _ => none

/-- `tokenize`: the terminal of a rule and the nonterminals behind it. -/
def tokenize : Rule T → Option (T × List Name)
  | .terminal token :: symbols => (symbols.mapM stackSymbol).map fun ss => (token, ss)
  | _ => none

def Construction.stackOf (state : Construction T) : Nat → List Name
  | 0 => []
  | number + 1 => (state.stateStacks[number]?).getD []

/-- The first state whose stack has the same nonterminals: `sorted(stack)` is
compared. -/
def Construction.recursive? (state : Construction T) (stateStack : List Name) : Option Nat :=
  (state.stateStacks.findIdx? fun stack => decide (stack.Perm stateStack)).map (· + 1)

/-- The body of the loop of `prep_transitions`; `count` numbers the transitions
of the state. -/
def prepTransition (stackLimit : Option Nat) (source : Nat) (nonterminal : Name)
    (current : Construction T × Nat) (rule : Rule T) : Option (Construction T × Nat) := do
  let (state, count) := current
  let (terminal, ss) ← tokenize rule
  let stateStack := ss ++ (state.stackOf source).tail
  let transition (dest : Nat) : Transition T :=
    ⟨(source, count), source, dest, terminal, stateStack⟩
  match state.recursive? stateStack with
  | some dest => some ({ state with pda := state.pda ++ [transition dest] }, count + 1)
  | none =>
      if stackLimit.any fun limit => limit != 0 && limit < stateStack.length then
        some ({ state with
          unexpandedRules := state.unexpandedRules ++ [(nonterminal, rule)] }, count)
      else
        let dest := state.stateStacks.length + 1
        some ({ state with
          pda := state.pda ++ [transition dest]
          worklist := state.worklist ++ [(dest, stateStack)]
          stateStacks := state.stateStacks ++ [stateStack] }, count + 1)

/-- `prep_transitions`; a state with an empty stack has none. -/
def prepTransitions (grammar : Grammar T) (stackLimit : Option Nat) (state : Construction T)
    (source : Nat) : List Name → Option (Construction T)
  | [] => some state
  | nonterminal :: _ => do
      let rules ← grammar.lookup nonterminal
      let (state, _) ← rules.foldlM (prepTransition stackLimit source nonterminal) (state, 1)
      some state

/-- The loop over the worklist. -/
def construct (grammar : Grammar T) (stackLimit : Option Nat) :
    Nat → Construction T → Option (Construction T)
  | fuel, state =>
      match state.worklist with
      | [] => some state
      | (source, stack) :: worklist =>
          match fuel with
          | 0 => none
          | fuel + 1 => do
              let state ← prepTransitions grammar stackLimit { state with worklist } source stack
              construct grammar stackLimit fuel state

def Construction.initial (start : Name) : Construction T := ⟨[], [(0, [start])], [], []⟩

/-- The loop of `main` of `construct_automata.py`. -/
def constructAutomata (grammar : Grammar T) (start : Name) (limit : Option Nat) (fuel : Nat) :
    Option (Construction T) :=
  construct grammar limit fuel (.initial start)

/-! ## The automaton's file -/

/-- `final_struct`: for each state its trigger's name, destination and terminal. -/
structure Automata (T : Type) where
  initState : Nat
  finalState : Nat
  numstates : Nat
  pda : List (Nat × List ((Nat × Nat) × Nat × T))

def sources (pda : List (Transition T)) : List Nat := (pda.map Transition.source).eraseDups

def dests (pda : List (Transition T)) : List Nat := (pda.map Transition.dest).eraseDups

/-- The final and the initial states of `_get_states`. -/
def finals (pda : List (Transition T)) : List Nat := (dests pda).filter (· ∉ sources pda)

def initials (pda : List (Transition T)) : List Nat := (sources pda).filter (· ∉ dests pda)

def memoized (pda : List (Transition T)) : List (Nat × List ((Nat × Nat) × Nat × T)) :=
  (sources pda).map fun state =>
    (state, (pda.filter (·.source = state)).map fun transition =>
      (transition.trigger, transition.dest, transition.terminal))

/-- A state of the stack limit: a transition leads there with something left. -/
def blocked (pda : List (Transition T)) (state : Nat) : Bool :=
  pda.any fun transition => transition.dest = state && 0 < transition.stack.length

/-- The joined names of the initial states, asserted to be one character: one
state of one digit. -/
def initialState (pda : List (Transition T)) : Option Nat :=
  match initials pda with
  | [state] => if state < 10 then some state else none
  | _ => none

def postprocess (stackLimit : Option Nat) (pda : List (Transition T)) : Option (Automata T) := do
  let initial ← initialState pda
  if stackLimit.any (· != 0) then
    let blocklist := (finals pda).filter (blocked pda)
    let culledPda := (finals pda).flatMap fun state =>
      pda.filter fun transition => !(transition.dest = state && 0 < transition.stack.length)
    match (finals pda).filter (· ∉ blocklist) with
    | [final] =>
        let kept := culledPda.filter (·.dest ∉ blocklist)
        some ⟨initial, final, (sources pda ++ dests pda).eraseDups.length, memoized kept⟩
    | _ => none
  else
    let final ← (finals pda).head?
    some ⟨initial, final, (memoized pda).length, memoized pda⟩

/-! ## Loading -/

/-- `term` of a trigger: a C string, with `\\n` for a line feed. -/
def loadTerm (terminal : Gramatron.Term) : Gramatron.Term :=
  let text := terminal.takeWhile (· ≠ 0)
  if text = [0x5C, 0x6E] then [0x0A] else text

theorem loadTerm_noNul (terminal : Gramatron.Term) : 0 ∉ loadTerm terminal := by
  simp only [loadTerm]
  split
  · decide
  · intro inside
    simpa using List.mem_takeWhile_imp inside

/-- `create_pda`. A state outside of the array is `none`. -/
def createPda (automata : Automata Gramatron.Term) : Option (List (List Gramatron.Trigger)) :=
  automata.pda.foldlM (fun pda (state, triggers) =>
      if state < pda.length then
        some (pda.set state (triggers.map fun (_, dest, terminal) =>
          ⟨dest, loadTerm terminal, loadTerm_noNul terminal⟩))
      else none)
    (List.replicate (automata.numstates + 1) [])

end SbFuzz.CustomMutators.ConstructAutomata
