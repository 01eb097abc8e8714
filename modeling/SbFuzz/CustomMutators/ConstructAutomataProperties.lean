import SbFuzz.CustomMutators.ConstructAutomata
import SbFuzz.CustomMutators.GramatronProperties
import SbFuzz.Systems.RankedLists

/-! What the automaton of a grammar spells. A state keeps the nonterminals that
are left, and a state whose nonterminals are the same in another order is not
built again. -/

set_option autoImplicit false

namespace SbFuzz.CustomMutators.ConstructAutomata

open Systems (nodup_eraseDups)
open Systems.Grammars

variable {T : Type}

namespace Grammar

theorem mem_pairs {grammar : Grammar T} {name : Name} {rule : Rule T} :
    (name, rule) ∈ grammar.pairs ↔
      ∃ rules, (name, rules) ∈ grammar.entries ∧ rule ∈ rules := by
  simp only [pairs, List.mem_flatMap, List.mem_map, Prod.mk.injEq]
  constructor
  · rintro ⟨⟨key, rules⟩, entry, other, member, rfl, rfl⟩
    exact ⟨rules, entry, member⟩
  · rintro ⟨rules, entry, member⟩
    exact ⟨(name, rules), entry, rule, member, rfl, rfl⟩

theorem lookup_eq_some_iff {grammar : Grammar T} {name : Name} {rules : List (Rule T)} :
    grammar.lookup name = some rules ↔ (name, rules) ∈ grammar.entries := by
  rw [lookup, List.lookup_eq_some_iff]
  constructor
  · rintro ⟨before, after, same, _⟩
    rw [same]
    simp
  · intro member
    obtain ⟨before, after, same⟩ := List.append_of_mem member
    refine ⟨before, after, same, fun entry earlier => ?_⟩
    have distinct := grammar.distinct
    rw [same, List.map_append, List.nodup_append] at distinct
    have different := distinct.2.2 entry.1 (List.mem_map_of_mem earlier) name (by simp)
    simpa [bne_iff_ne] using different.symm

theorem rules_of_lookup {grammar : Grammar T} {name : Name} {bodies : List (Rule T)}
    (found : grammar.lookup name = some bodies) {body : Rule T} :
    grammar.rules name body ↔ body ∈ bodies := by
  constructor
  · intro rule
    obtain ⟨rules, entry, member⟩ := mem_pairs.mp rule
    rw [← lookup_eq_some_iff, found, Option.some.injEq] at entry
    exact entry ▸ member
  · intro member
    exact mem_pairs.mpr ⟨bodies, lookup_eq_some_iff.mp found, member⟩

/-- Every key has a rule. -/
def Filled (grammar : Grammar T) : Prop := ∀ entry ∈ grammar.entries, entry.2 ≠ []

end Grammar

theorem foldlM_total {α β : Type} {step : α → β → Option α} {items : List β}
    (total : ∀ state, ∀ item ∈ items, ∃ next, step state item = some next) (init : α) :
    ∃ final, items.foldlM step init = some final := by
  induction items generalizing init with
  | nil => exact ⟨init, rfl⟩
  | cons item items ih =>
      obtain ⟨next, stepped⟩ := total init item List.mem_cons_self
      obtain ⟨final, ran⟩ := ih (fun state other member =>
        total state other (List.mem_cons_of_mem _ member)) next
      exact ⟨final, by rw [List.foldlM_cons, stepped]; exact ran⟩

theorem mapM_stackSymbol {symbols : List (Symbol T Name)} {names : List Name} :
    symbols.mapM stackSymbol = some names ↔ symbols = names.map .nonterminal := by
  induction symbols generalizing names with
  | nil => cases names <;> simp
  | cons symbol symbols ih =>
      rw [List.mapM_cons, Option.bind_eq_bind, Option.bind_eq_some_iff]
      cases symbol with
      | terminal token => cases names <;> simp [stackSymbol]
      | nonterminal name =>
          simp only [stackSymbol, Option.some.injEq, exists_eq_left', Option.bind_eq_bind,
            Option.bind_eq_some_iff, ih, Option.pure_def]
          constructor
          · rintro ⟨others, rfl, rfl⟩
            rfl
          · intro same
            cases names with
            | nil => cases same
            | cons other others =>
                cases same
                exact ⟨others, rfl, rfl⟩

theorem tokenize_eq_some_iff {rule : Rule T} {token : T} {names : List Name} :
    tokenize rule = some (token, names) ↔ rule = .terminal token :: names.map .nonterminal := by
  match rule with
  | [] => simp [tokenize]
  | .nonterminal _ :: _ => simp [tokenize]
  | .terminal first :: symbols =>
      simp only [tokenize, Option.map_eq_some_iff, mapM_stackSymbol, Prod.mk.injEq,
        List.cons.injEq, Symbol.terminal.injEq]
      constructor
      · rintro ⟨_, rfl, rfl, rfl⟩
        exact ⟨rfl, rfl⟩
      · rintro ⟨rfl, rfl⟩
        exact ⟨_, rfl, rfl, rfl⟩

namespace Construction

variable {start : Name} {state next : Construction T} {number : Nat}

/-- The nonterminals a state has left to spell. The first state has the start
symbol left. -/
def left (state : Construction T) (start : Name) : Nat → List Name
  | 0 => [start]
  | number + 1 => (state.stateStacks[number]?).getD []

theorem tail_left (start : Name) : (state.left start number).tail = (state.stackOf number).tail := by
  cases number <;> rfl

theorem left_succ (inside : number < state.stateStacks.length) :
    state.left start (number + 1) = state.stateStacks[number] := by
  simp [left, List.getElem?_eq_getElem inside]

theorem recursive?_eq_some (start : Name) {stateStack : List Name} {dest : Nat}
    (found : state.recursive? stateStack = some dest) :
    0 < dest ∧ dest ≤ state.stateStacks.length ∧ (state.left start dest).Perm stateStack := by
  obtain ⟨index, first, rfl⟩ := Option.map_eq_some_iff.mp found
  obtain ⟨inside, same, _⟩ := List.findIdx?_eq_some_iff_getElem.mp first
  rw [left_succ inside]
  exact ⟨Nat.succ_pos _, inside, of_decide_eq_true same⟩

theorem recursive?_eq_none {stateStack : List Name} (absent : state.recursive? stateStack = none) :
    ∀ stack ∈ state.stateStacks, ¬ stack.Perm stateStack := by
  intro stack member same
  have none := List.findIdx?_eq_none_iff.mp (Option.map_eq_none_iff.mp absent) stack member
  exact of_decide_eq_false none same

/-! ## One transition -/

/-- What is there stays there. -/
structure Extends (state next : Construction T) : Prop where
  pda : state.pda <+: next.pda
  worklist : state.worklist <+: next.worklist
  stateStacks : state.stateStacks <+: next.stateStacks
  unexpandedRules : state.unexpandedRules <+: next.unexpandedRules

theorem Extends.refl (state : Construction T) : Extends state state :=
  ⟨List.prefix_rfl, List.prefix_rfl, List.prefix_rfl, List.prefix_rfl⟩

theorem Extends.trans {last : Construction T} (first : Extends state next)
    (second : Extends next last) : Extends state last :=
  ⟨first.pda.trans second.pda, first.worklist.trans second.worklist,
    first.stateStacks.trans second.stateStacks,
    first.unexpandedRules.trans second.unexpandedRules⟩

theorem Extends.left_eq (grown : Extends state next)
    (inside : number ≤ state.stateStacks.length) :
    next.left start number = state.left start number := by
  cases number with
  | zero => rfl
  | succ number =>
      obtain ⟨more, same⟩ := grown.stateStacks
      rw [left, left, ← same, List.getElem?_append_left inside]

/-- The transition takes the top nonterminal for one of its rules, and leads to
a state with the nonterminals that are then left. -/
def Sound (rules : Rules T Name) (start : Name) (state : Construction T)
    (transition : Transition T) : Prop :=
  transition.source ≤ state.stateStacks.length ∧
    0 < transition.dest ∧ transition.dest ≤ state.stateStacks.length ∧
    (state.left start transition.dest).Perm transition.stack ∧
    ∃ name rest names, state.left start transition.source = name :: rest ∧
      rules name (.terminal transition.terminal :: names.map .nonterminal) ∧
      transition.stack = names ++ rest

theorem Sound.extend {rules : Rules T Name} {transition : Transition T}
    (sound : Sound rules start state transition) (grown : Extends state next) :
    Sound rules start next transition := by
  obtain ⟨source, positive, dest, same, others⟩ := sound
  have more := grown.stateStacks.length_le
  refine ⟨source.trans more, positive, dest.trans more, ?_, ?_⟩
  · rwa [grown.left_eq dest]
  · rwa [grown.left_eq source]

/-- A rule of the state's top nonterminal has its transition, or was dropped. -/
def Taken (state : Construction T) (source : Nat) (name : Name) (rest : List Name) (token : T)
    (names : List Name) : Prop :=
  (∃ transition ∈ state.pda, transition.source = source ∧ transition.terminal = token ∧
    transition.stack = names ++ rest) ∨
  (name, .terminal token :: names.map .nonterminal) ∈ state.unexpandedRules

theorem Taken.extend {source : Nat} {name : Name} {rest names : List Name} {token : T}
    (taken : Taken state source name rest token names) (grown : Extends state next) :
    Taken next source name rest token names := by
  rcases taken with ⟨transition, member, facts⟩ | dropped
  · exact .inl ⟨transition, grown.pda.subset member, facts⟩
  · exact .inr (grown.unexpandedRules.subset dropped)

/-- The stacks fit the bound, if there is one. -/
def Bounded (stackLimit : Option Nat) (state : Construction T) : Prop :=
  ∀ limit, stackLimit = some limit → limit ≠ 0 →
    ∀ stack ∈ state.stateStacks, stack.length ≤ limit

/-- The nonterminal is in a rule. -/
def Mentioned (rules : Rules T Name) (name : Name) : Prop :=
  ∃ lhs rule, rules lhs rule ∧ .nonterminal name ∈ rule

/-- What holds between two transitions. -/
structure Built (rules : Rules T Name) (start : Name) (stackLimit : Option Nat)
    (state : Construction T) : Prop where
  sound : ∀ transition ∈ state.pda, Sound rules start state transition
  waiting : ∀ entry ∈ state.worklist, entry.1 ≤ state.stateStacks.length ∧
    entry.2 = state.left start entry.1
  apart : state.stateStacks.Pairwise fun first second => ¬ first.Perm second
  entered : ∀ number < state.stateStacks.length, ∃ transition ∈ state.pda,
    transition.dest = number + 1
  bounded : Bounded stackLimit state
  named : ∀ stack ∈ state.stateStacks, ∀ name ∈ stack, Mentioned rules name
  complete : stackLimit.any (· != 0) = false → state.unexpandedRules = []

/-- What one round of the loop over the rules adds. -/
structure Adds (state next : Construction T) : Prop where
  grown : Extends state next
  queued : ∀ number, state.stateStacks.length < number → number ≤ next.stateStacks.length →
    number ∈ next.worklist.map Prod.fst
  added : next.worklist.length + state.stateStacks.length =
    state.worklist.length + next.stateStacks.length

theorem Adds.refl (state : Construction T) : Adds state state :=
  ⟨.refl state, fun _ above below => absurd below (by omega), rfl⟩

theorem Adds.trans {last : Construction T} (first : Adds state next) (second : Adds next last) :
    Adds state last := by
  refine ⟨first.grown.trans second.grown, fun number above below => ?_, ?_⟩
  · by_cases early : number ≤ next.stateStacks.length
    · exact (second.grown.worklist.map Prod.fst).subset (first.queued number above early)
    · exact second.queued number (by omega) below
  · have one := first.added
    have two := second.added
    omega

section
variable {rules : Rules T Name} {stackLimit : Option Nat} {source count after : Nat}
  {nonterminal : Name} {rest : List Name} {rule : Rule T} {transition : Transition T}

/-- A transition to a state that is there. -/
theorem Built.again (built : Built rules start stackLimit state)
    (sound : Sound rules start state transition) :
    Adds state { state with pda := state.pda ++ [transition] } ∧
      Built rules start stackLimit { state with pda := state.pda ++ [transition] } := by
  have grown : Extends state { state with pda := state.pda ++ [transition] } :=
    ⟨List.prefix_append _ _, List.prefix_rfl, List.prefix_rfl, List.prefix_rfl⟩
  refine ⟨⟨grown, fun _ above below => absurd below (by simpa using above), rfl⟩, ?_,
    built.waiting, built.apart, fun number inside => ?_, built.bounded, built.named,
    built.complete⟩
  · intro other member
    rcases List.mem_append.mp member with old | new
    · exact (built.sound other old).extend grown
    · rw [List.mem_singleton.mp new]
      exact sound.extend grown
  · obtain ⟨other, member, dest⟩ := built.entered number inside
    exact ⟨other, List.mem_append_left _ member, dest⟩

/-- A rule that leads beyond the stack limit. -/
theorem Built.drop (built : Built rules start stackLimit state)
    (limited : stackLimit.any (· != 0) = true) (dropped : Name × Rule T) :
    Adds state { state with unexpandedRules := state.unexpandedRules ++ [dropped] } ∧
      Built rules start stackLimit
        { state with unexpandedRules := state.unexpandedRules ++ [dropped] } := by
  have grown : Extends state
      { state with unexpandedRules := state.unexpandedRules ++ [dropped] } :=
    ⟨List.prefix_rfl, List.prefix_rfl, List.prefix_rfl, List.prefix_append _ _⟩
  refine ⟨⟨grown, fun _ above below => absurd below (by simpa using above), rfl⟩,
    fun other member => (built.sound other member).extend grown, built.waiting, built.apart,
    built.entered, built.bounded, built.named, fun unlimited => ?_⟩
  rw [unlimited] at limited
  cases limited

/-- `state` with a new state behind the transition. -/
def push (state : Construction T) (transition : Transition T) : Construction T :=
  { state with
    pda := state.pda ++ [transition]
    worklist := state.worklist ++ [(transition.dest, transition.stack)]
    stateStacks := state.stateStacks ++ [transition.stack] }

theorem Extends.push (state : Construction T) (transition : Transition T) :
    Extends state (state.push transition) :=
  ⟨List.prefix_append _ _, List.prefix_append _ _, List.prefix_append _ _, List.prefix_rfl⟩

theorem left_push (fresh : transition.dest = state.stateStacks.length + 1) :
    (state.push transition).left start transition.dest = transition.stack := by
  rw [fresh]
  simp [left, Construction.push]

/-- A transition to a new state. -/
theorem Built.push (built : Built rules start stackLimit state)
    (fresh : transition.dest = state.stateStacks.length + 1)
    (sound : Sound rules start (state.push transition) transition)
    (absent : ∀ stack ∈ state.stateStacks, ¬ stack.Perm transition.stack)
    (fits : ∀ limit, stackLimit = some limit → limit ≠ 0 → transition.stack.length ≤ limit)
    (named : ∀ name ∈ transition.stack, Mentioned rules name) :
    Adds state (state.push transition) ∧
      Built rules start stackLimit (state.push transition) := by
  have grown := Extends.push state transition
  have total : (state.push transition).stateStacks.length = state.stateStacks.length + 1 :=
    List.length_append
  refine ⟨⟨grown, fun number above below => ?_, ?_⟩, fun other member => ?_,
    fun entry member => ?_, ?_, fun number inside => ?_,
    fun limit isLimit positive stack member => ?_, fun stack member => ?_, built.complete⟩
  · have same : number = transition.dest := by
      rw [total] at below
      omega
    rw [same]
    simp [Construction.push]
  · simp only [Construction.push, List.length_append, List.length_singleton]
    omega
  · rcases List.mem_append.mp member with old | new
    · exact (built.sound other old).extend grown
    · rw [List.mem_singleton.mp new]
      exact sound
  · rcases List.mem_append.mp member with old | new
    · obtain ⟨inside, same⟩ := built.waiting entry old
      rw [grown.left_eq inside]
      exact ⟨by omega, same⟩
    · rw [List.mem_singleton.mp new]
      exact ⟨by omega, (left_push fresh).symm⟩
  · refine List.pairwise_append.mpr ⟨built.apart, List.pairwise_singleton _ _, ?_⟩
    intro stack member other single
    rw [List.mem_singleton.mp single]
    exact absent stack member
  · by_cases old : number < state.stateStacks.length
    · obtain ⟨other, member, dest⟩ := built.entered number old
      exact ⟨other, List.mem_append_left _ member, dest⟩
    · refine ⟨transition, List.mem_append_right _ (List.mem_singleton_self _), ?_⟩
      rw [fresh]
      omega
  · rcases List.mem_append.mp member with old | new
    · exact built.bounded limit isLimit positive stack old
    · rw [List.mem_singleton.mp new]
      exact fits limit isLimit positive
  · rcases List.mem_append.mp member with old | new
    · exact built.named stack old
    · rw [List.mem_singleton.mp new]
      exact named

/-- What is left behind the top nonterminal came from a rule. -/
theorem Built.named_tail (built : Built rules start stackLimit state)
    (inside : source ≤ state.stateStacks.length)
    (top : state.left start source = nonterminal :: rest) :
    ∀ name ∈ rest, Mentioned rules name := by
  intro name member
  cases source with
  | zero =>
      cases top
      cases member
  | succ number =>
      rw [left_succ inside] at top
      exact built.named _ (List.getElem_mem inside) name (top ▸ List.mem_cons_of_mem _ member)

/-- One rule of the top nonterminal. -/
theorem prepTransition_spec (built : Built rules start stackLimit state)
    (inside : source ≤ state.stateStacks.length)
    (top : state.left start source = nonterminal :: rest) (known : rules nonterminal rule)
    (stepped : prepTransition stackLimit source nonterminal (state, count) rule =
      some (next, after)) :
    Adds state next ∧ Built rules start stackLimit next ∧
      ∃ token names, rule = .terminal token :: names.map .nonterminal ∧
        Taken next source nonterminal rest token names := by
  simp only [prepTransition, Option.bind_eq_bind, Option.bind_eq_some_iff] at stepped
  obtain ⟨⟨token, names⟩, read, stepped⟩ := stepped
  obtain rfl := tokenize_eq_some_iff.mp read
  have remaining : (state.stackOf source).tail = rest := by
    rw [← tail_left start, top, List.tail_cons]
  simp only [remaining] at stepped
  cases found : state.recursive? (names ++ rest) with
  | some dest =>
      rw [found] at stepped
      cases stepped
      obtain ⟨positive, reached, same⟩ := recursive?_eq_some start found
      have sound : Sound rules start state
          ⟨(source, count), source, dest, token, names ++ rest⟩ :=
        ⟨inside, positive, reached, same, nonterminal, rest, names, top, known, rfl⟩
      obtain ⟨adds, after⟩ := built.again sound
      exact ⟨adds, after, token, names, rfl,
        .inl ⟨_, List.mem_append_right _ (List.mem_singleton_self _), rfl, rfl, rfl⟩⟩
  | none =>
      rw [found] at stepped
      dsimp only at stepped
      split at stepped
      · next tooLong =>
          cases stepped
          have limited : stackLimit.any (· != 0) = true := by
            cases stackLimit with
            | none => cases tooLong
            | some limit =>
                simp only [Option.any_some, Bool.and_eq_true] at tooLong ⊢
                exact tooLong.1
          obtain ⟨adds, after⟩ := built.drop limited
            (nonterminal, .terminal token :: names.map .nonterminal)
          exact ⟨adds, after, token, names, rfl,
            .inr (List.mem_append_right _ (List.mem_singleton_self _))⟩
      · next short =>
          cases stepped
          have fits (limit : Nat) (isLimit : stackLimit = some limit) (positive : limit ≠ 0) :
              (names ++ rest).length ≤ limit := by
            subst isLimit
            simp only [Option.any_some, Bool.and_eq_true, bne_iff_ne, decide_eq_true_eq,
              not_and] at short
            have := short positive
            omega
          have grown := Extends.push state
            ⟨(source, count), source, state.stateStacks.length + 1, token, names ++ rest⟩
          have sound : Sound rules start (state.push
              ⟨(source, count), source, state.stateStacks.length + 1, token, names ++ rest⟩)
              ⟨(source, count), source, state.stateStacks.length + 1, token, names ++ rest⟩ :=
            ⟨inside.trans grown.stateStacks.length_le, Nat.succ_pos _,
              by simp [Construction.push], by rw [left_push rfl], nonterminal, rest, names,
              by rw [grown.left_eq inside, top], known, rfl⟩
          have named (name : Name) (member : name ∈ names ++ rest) : Mentioned rules name := by
            rcases List.mem_append.mp member with own | other
            · exact ⟨nonterminal, _, known,
                List.mem_cons_of_mem _ (List.mem_map_of_mem own)⟩
            · exact built.named_tail inside top name other
          obtain ⟨adds, after⟩ := built.push rfl sound (recursive?_eq_none found) fits named
          exact ⟨adds, after, token, names, rfl,
            .inl ⟨_, List.mem_append_right _ (List.mem_singleton_self _), rfl, rfl, rfl⟩⟩

theorem foldlM_prepTransition {bodies : List (Rule T)}
    (built : Built rules start stackLimit state) (inside : source ≤ state.stateStacks.length)
    (top : state.left start source = nonterminal :: rest)
    (known : ∀ rule ∈ bodies, rules nonterminal rule)
    (ran : bodies.foldlM (prepTransition stackLimit source nonterminal) (state, count) =
      some (next, after)) :
    Adds state next ∧ Built rules start stackLimit next ∧
      ∀ rule ∈ bodies, ∃ token names, rule = .terminal token :: names.map .nonterminal ∧
        Taken next source nonterminal rest token names := by
  induction bodies generalizing state count with
  | nil =>
      cases ran
      exact ⟨.refl _, built, by simp⟩
  | cons rule bodies ih =>
      rw [List.foldlM_cons, Option.bind_eq_bind, Option.bind_eq_some_iff] at ran
      obtain ⟨⟨middle, between⟩, stepped, ran⟩ := ran
      obtain ⟨first, built, token, names, same, taken⟩ :=
        prepTransition_spec built inside top (known rule List.mem_cons_self) stepped
      obtain ⟨second, built, others⟩ := ih built
        (inside.trans first.grown.stateStacks.length_le)
        ((first.grown.left_eq inside).trans top)
        (fun other member => known other (List.mem_cons_of_mem _ member)) ran
      refine ⟨first.trans second, built, fun other member => ?_⟩
      rcases List.mem_cons.mp member with rfl | member
      · exact ⟨token, names, same, taken.extend second.grown⟩
      · exact others other member

end

/-- The state's top nonterminal is known, and its rules were all taken. -/
structure Expanded (grammar : Grammar T) (start : Name) (state : Construction T) (number : Nat) :
    Prop where
  defined : ∀ name rest, state.left start number = name :: rest →
    ∃ bodies, grammar.lookup name = some bodies
  taken : ∀ name rest token names, state.left start number = name :: rest →
    grammar.rules name (.terminal token :: names.map .nonterminal) →
    Taken state number name rest token names

theorem Expanded.extend {grammar : Grammar T} (expanded : Expanded grammar start state number)
    (grown : Extends state next) (inside : number ≤ state.stateStacks.length) :
    Expanded grammar start next number := by
  have same : next.left start number = state.left start number := grown.left_eq inside
  refine ⟨fun name rest top => ?_, fun name rest token names top rule => ?_⟩
  · rw [same] at top
    exact expanded.defined name rest top
  · rw [same] at top
    exact (expanded.taken name rest token names top rule).extend grown

/-! ## The whole construction -/

section
variable {grammar : Grammar T} {stackLimit : Option Nat} {source : Nat}

theorem Built.pop {rules : Rules T Name} (built : Built rules start stackLimit state)
    {entry : Nat × List Name} {worklist : List (Nat × List Name)}
    (queue : state.worklist = entry :: worklist) :
    Built rules start stackLimit { state with worklist } :=
  ⟨built.sound, fun other member => built.waiting other (by simp [queue, member]), built.apart,
    built.entered, built.bounded, built.named, built.complete⟩

theorem prepTransitions_spec (built : Built grammar.rules start stackLimit state)
    (inside : source ≤ state.stateStacks.length)
    (prepared : prepTransitions grammar stackLimit state source (state.left start source) =
      some next) :
    Adds state next ∧ Built grammar.rules start stackLimit next ∧
      Expanded grammar start next source := by
  cases top : state.left start source with
  | nil =>
      rw [top] at prepared
      cases prepared
      refine ⟨.refl _, built, fun _ _ here => ?_, fun _ _ _ _ here => ?_⟩
      · rw [top] at here
        cases here
      · rw [top] at here
        cases here
  | cons nonterminal rest =>
      rw [top] at prepared
      simp only [prepTransitions, Option.bind_eq_bind, Option.bind_eq_some_iff] at prepared
      obtain ⟨bodies, found, ⟨last, after⟩, ran, same⟩ := prepared
      cases same
      obtain ⟨adds, built, taken⟩ := foldlM_prepTransition built inside top
        (fun rule member => (Grammar.rules_of_lookup found).mpr member) ran
      refine ⟨adds, built, fun name others here => ?_, fun name others token names here rule => ?_⟩
      · rw [adds.grown.left_eq inside, top] at here
        cases here
        exact ⟨bodies, found⟩
      · rw [adds.grown.left_eq inside, top] at here
        cases here
        obtain ⟨other, inner, same, taken⟩ :=
          taken _ ((Grammar.rules_of_lookup found).mp rule)
        obtain ⟨rfl, rfl⟩ : token = other ∧ names = inner := by
          simpa [List.map_inj_right] using same
        exact taken

/-- All states have all their transitions, and nothing else is built. -/
structure Finished (grammar : Grammar T) (start : Name) (stackLimit : Option Nat)
    (state : Construction T) : Prop extends Built grammar.rules start stackLimit state where
  expanded : ∀ number ≤ state.stateStacks.length, Expanded grammar start state number

theorem construct_finished {fuel : Nat} {final : Construction T}
    (built : Built grammar.rules start stackLimit state)
    (closed : ∀ number ≤ state.stateStacks.length, number ∉ state.worklist.map Prod.fst →
      Expanded grammar start state number)
    (constructed : construct grammar stackLimit fuel state = some final) :
    Finished grammar start stackLimit final := by
  induction fuel generalizing state with
  | zero =>
      rw [construct] at constructed
      split at constructed
      · next empty =>
          cases constructed
          exact ⟨built, fun number inside => closed number inside (by simp [empty])⟩
      · cases constructed
  | succ fuel ih =>
      rw [construct] at constructed
      split at constructed
      · next empty =>
          cases constructed
          exact ⟨built, fun number inside => closed number inside (by simp [empty])⟩
      · next source stack worklist queue =>
          simp only [Option.bind_eq_bind, Option.bind_eq_some_iff] at constructed
          obtain ⟨next, prepared, constructed⟩ := constructed
          obtain ⟨inside, same⟩ := built.waiting (source, stack) (by simp [queue])
          have popped := built.pop queue
          dsimp only at same
          subst same
          obtain ⟨adds, after, expanded⟩ := prepTransitions_spec popped inside prepared
          refine ih after (fun number within absent => ?_) constructed
          by_cases old : number ≤ state.stateStacks.length
          · by_cases same : number = source
            · exact same ▸ expanded
            · have before : number ∉ state.worklist.map Prod.fst := by
                rw [queue, List.map_cons, List.mem_cons, not_or]
                exact ⟨same, fun member =>
                  absent ((adds.grown.worklist.map Prod.fst).subset member)⟩
              obtain ⟨defined, taken⟩ := closed number old before
              have whole : Expanded grammar start { state with worklist } number :=
                ⟨defined, taken⟩
              exact whole.extend adds.grown old
          · exact absurd (adds.queued number (by simpa using old) within) absent

theorem built_initial {rules : Rules T Name} :
    Built rules start stackLimit (.initial start) := by
  refine ⟨?_, ?_, ?_, ?_, ?_, ?_, fun _ => rfl⟩
  · simp [Construction.initial]
  · simp [Construction.initial, left]
  · simp [Construction.initial]
  · simp [Construction.initial]
  · simp [Bounded, Construction.initial]
  · simp [Construction.initial]

theorem constructAutomata_finished {fuel : Nat} {final : Construction T}
    (constructed : constructAutomata grammar start stackLimit fuel = some final) :
    Finished grammar start stackLimit final := by
  exact construct_finished built_initial (by simp [Construction.initial]) constructed

end

/-! ## What the walks spell -/

/-- The edges of the automaton. -/
def Edge (state : Construction T) (first : Nat) (token : T) (second : Nat) : Prop :=
  ∃ transition ∈ state.pda,
    transition.source = first ∧ transition.terminal = token ∧ transition.dest = second

/-- No state was taken for another whose nonterminals are in another order. -/
def Kept (start : Name) (state : Construction T) : Prop :=
  ∀ transition ∈ state.pda, state.left start transition.dest = transition.stack

instance (start : Name) (state : Construction T) : Decidable (state.Kept start) :=
  inferInstanceAs (Decidable (∀ transition ∈ state.pda,
    state.left start transition.dest = transition.stack))

section
variable {grammar : Grammar T} {stackLimit : Option Nat} {final : Construction T}
  {near : List Name → List Name → Prop} {alike : List T → List T → Prop}

theorem Finished.follows (finished : Finished grammar start stackLimit final)
    (leads : ∀ transition ∈ final.pda,
      near (final.left start transition.dest) transition.stack) :
    Follows grammar.rules final.Edge (final.left start) near := by
  rintro _ _ _ ⟨transition, member, rfl, rfl, rfl⟩
  obtain ⟨_, _, _, _, name, rest, names, top, rule, stack⟩ := finished.sound transition member
  exact ⟨name, rest, names, top, rule, stack ▸ leads transition member⟩

/-- Without a limit no rule was dropped. -/
theorem Finished.transition (finished : Finished grammar start stackLimit final)
    (unlimited : stackLimit.any (· != 0) = false) (inside : number ≤ final.stateStacks.length)
    {name : Name} {rest names : List Name} {token : T} (top : final.left start number = name :: rest)
    (rule : grammar.rules name (.terminal token :: names.map .nonterminal)) :
    ∃ transition ∈ final.pda, transition.source = number ∧ transition.terminal = token ∧
      transition.stack = names ++ rest := by
  rcases (finished.expanded number inside).taken name rest token names top rule with
    taken | dropped
  · exact taken
  · rw [finished.complete unlimited] at dropped
    cases dropped

theorem Finished.stays (finished : Finished grammar start stackLimit final) (first : Nat)
    (token : T) (second : Nat) (_ : first ≤ final.stateStacks.length)
    (edge : final.Edge first token second) : second ≤ final.stateStacks.length := by
  obtain ⟨transition, member, _, _, rfl⟩ := edge
  exact (finished.sound transition member).2.2.1

theorem Finished.covers (finished : Finished grammar start stackLimit final)
    (unlimited : stackLimit.any (· != 0) = false)
    (leads : ∀ transition ∈ final.pda,
      near transition.stack (final.left start transition.dest)) :
    Covers grammar.rules final.Edge (final.left start) (· ≤ final.stateStacks.length) near := by
  refine ⟨finished.stays, fun first name rest token names inside top rule => ?_⟩
  obtain ⟨transition, member, source, terminal, stack⟩ :=
    finished.transition unlimited inside top rule
  exact ⟨transition.dest, ⟨transition, member, source, terminal, rfl⟩,
    stack ▸ leads transition member⟩

/-- A walk from the first state to one with nothing left. -/
def Accepts (start : Name) (state : Construction T) (word : List T) : Prop :=
  ∃ last, Walk state.Edge 0 word last ∧ state.left start last = []

/-- With a stack limit or without, a walk spells a word of the grammar, but for
the order of its tokens. -/
theorem Finished.accepts_spells (finished : Finished grammar start stackLimit final)
    {word : List T} (accepted : final.Accepts start word) :
    ∃ other, Spells grammar.rules [.nonterminal start] other ∧ word.Perm other := by
  obtain ⟨last, walk, ends⟩ := accepted
  have follows := finished.follows fun transition member =>
    (finished.sound transition member).2.2.2.1
  exact follows.spells (.perm _) walk ends

theorem Finished.spells_walks (finished : Finished grammar start stackLimit final)
    (unlimited : stackLimit.any (· != 0) = false) (greibach : Greibach grammar.rules)
    (keeps : Keeps grammar.rules near alike)
    (leads : ∀ transition ∈ final.pda, near transition.stack (final.left start transition.dest))
    {word : List T} (spelled : Spells grammar.rules [.nonterminal start] word) :
    ∃ other, final.Accepts start other ∧ alike word other := by
  have fromStart : Spells grammar.rules ((final.left start 0).map .nonterminal) word := spelled
  obtain ⟨other, last, walk, ends, same⟩ :=
    (finished.covers unlimited leads).walks keeps greibach (Nat.zero_le _) fromStart
  exact ⟨other, ⟨last, walk, ends⟩, same⟩

/-- Where the stacks of a state were always in one order, so are the tokens. -/
theorem Finished.accepts_iff (finished : Finished grammar start stackLimit final)
    (unlimited : stackLimit.any (· != 0) = false) (greibach : Greibach grammar.rules)
    (kept : final.Kept start) {word : List T} :
    final.Accepts start word ↔ Spells grammar.rules [.nonterminal start] word := by
  constructor
  · rintro ⟨last, walk, ends⟩
    obtain ⟨_, spelled, rfl⟩ := (finished.follows kept).spells (.eq _) walk ends
    exact spelled
  · intro spelled
    obtain ⟨_, accepted, rfl⟩ := finished.spells_walks unlimited greibach (.eq _)
      (fun transition member => (kept transition member).symm) spelled
    exact accepted

end

end Construction

theorem greibach_of_tokenize {grammar : Grammar T}
    (shaped : ∀ entry ∈ grammar.pairs, (tokenize entry.2).isSome = true) :
    Greibach grammar.rules := by
  intro name body rule
  obtain ⟨⟨token, names⟩, read⟩ := Option.isSome_iff_exists.mp (shaped _ rule)
  exact ⟨token, names, tokenize_eq_some_iff.mp read⟩

/-- `S: 'b' C S | 'd'`, `C: 'c'`. -/
def listed : Grammar Gramatron.Term where
  entries := [
    ("S", [[.terminal [0x62], .nonterminal "C", .nonterminal "S"], [.terminal [0x64]]]),
    ("C", [[.terminal [0x63]]])]
  distinct := by decide

theorem mem_sources {pda : List (Transition T)} {state : Nat} :
    state ∈ sources pda ↔ ∃ transition ∈ pda, transition.source = state := by
  simp [sources]

theorem mem_dests {pda : List (Transition T)} {state : Nat} :
    state ∈ dests pda ↔ ∃ transition ∈ pda, transition.dest = state := by
  simp [dests]

/-- A list without repetitions that has one item alone. -/
theorem eq_singleton {α : Type} {items : List α} {item : α} (distinct : items.Nodup)
    (alone : ∀ other, other ∈ items ↔ other = item) : items = [item] := by
  refine List.perm_singleton.mp ?_
  refine (List.perm_ext_iff_of_nodup distinct (List.nodup_singleton item)).mpr fun other => ?_
  rw [alone, List.mem_singleton]

namespace Construction

variable {grammar : Grammar T} {start : Name} {stackLimit : Option Nat} {final : Construction T}

theorem Finished.initials_eq (finished : Finished grammar start stackLimit final)
    (begins : 0 ∈ sources final.pda) : initials final.pda = [0] := by
  refine eq_singleton ((nodup_eraseDups _).filter _) fun state => ?_
  rw [initials, List.mem_filter, decide_eq_true_eq]
  constructor
  · rintro ⟨source, notDest⟩
    obtain ⟨transition, member, rfl⟩ := mem_sources.mp source
    have inside := (finished.sound transition member).1
    cases number : transition.source with
    | zero => rfl
    | succ previous =>
        rw [number] at inside notDest
        exact absurd (mem_dests.mpr (finished.entered previous inside)) notDest
  · rintro rfl
    refine ⟨begins, fun dest => ?_⟩
    obtain ⟨transition, member, none⟩ := mem_dests.mp dest
    have positive := (finished.sound transition member).2.1
    omega

/-- The states with something left are those that transitions go out from. -/
theorem Finished.mem_sources_iff (finished : Finished grammar start stackLimit final)
    (unlimited : stackLimit.any (· != 0) = false) (greibach : Greibach grammar.rules)
    (filled : grammar.Filled) {state : Nat} (inside : state ≤ final.stateStacks.length) :
    state ∈ sources final.pda ↔ final.left start state ≠ [] := by
  rw [mem_sources]
  constructor
  · rintro ⟨transition, member, rfl⟩
    obtain ⟨_, _, _, _, name, rest, _, top, _⟩ := finished.sound transition member
    rw [top]
    exact List.cons_ne_nil name rest
  · intro something
    obtain ⟨name, rest, top⟩ := List.exists_cons_of_ne_nil something
    obtain ⟨bodies, found⟩ := (finished.expanded state inside).defined name rest top
    have entry := Grammar.lookup_eq_some_iff.mp found
    obtain ⟨body, member⟩ := List.exists_mem_of_ne_nil bodies (filled _ entry)
    have rule : grammar.rules name body := (Grammar.rules_of_lookup found).mpr member
    obtain ⟨token, names, rfl⟩ := greibach name body rule
    obtain ⟨transition, member, source, _⟩ := finished.transition unlimited inside top rule
    exact ⟨transition, member, source⟩

/-- One state at most has nothing left. -/
theorem Built.done_unique {rules : Rules T Name} (built : Built rules start stackLimit final)
    {first second : Nat} (firstInside : first ≤ final.stateStacks.length)
    (secondInside : second ≤ final.stateStacks.length) (firstDone : final.left start first = [])
    (secondDone : final.left start second = []) : first = second := by
  match first, second with
  | 0, _ => cases firstDone
  | _, 0 => cases secondDone
  | first + 1, second + 1 =>
      rw [left_succ firstInside] at firstDone
      rw [left_succ secondInside] at secondDone
      by_contra different
      have apart := List.pairwise_iff_getElem.mp built.apart
      rcases Nat.lt_or_gt_of_ne different with earlier | later
      · refine apart first second firstInside secondInside (by omega) ?_
        rw [firstDone, secondDone]
      · refine apart second first secondInside firstInside (by omega) ?_
        rw [firstDone, secondDone]

/-- The state with nothing left, as far as there is one, is the final one. -/
theorem Finished.finals_eq (finished : Finished grammar start stackLimit final)
    (unlimited : stackLimit.any (· != 0) = false) (greibach : Greibach grammar.rules)
    (filled : grammar.Filled) {last : Nat} (inside : last ≤ final.stateStacks.length)
    (done : final.left start last = []) : finals final.pda = [last] := by
  refine eq_singleton ((nodup_eraseDups _).filter _) fun state => ?_
  rw [finals, List.mem_filter, decide_eq_true_eq]
  constructor
  · rintro ⟨dest, notSource⟩
    obtain ⟨transition, member, rfl⟩ := mem_dests.mp dest
    have reached := (finished.sound transition member).2.2.1
    rw [finished.mem_sources_iff unlimited greibach filled reached, not_not] at notSource
    exact finished.done_unique reached inside notSource done
  · rintro rfl
    refine ⟨?_, ?_⟩
    · cases state with
      | zero => cases done
      | succ previous => exact mem_dests.mpr (finished.entered previous inside)
    · rw [finished.mem_sources_iff unlimited greibach filled inside, done]
      exact fun something => something rfl

/-- All states but the final one are counted. -/
theorem Finished.length_sources (finished : Finished grammar start stackLimit final)
    (unlimited : stackLimit.any (· != 0) = false) (greibach : Greibach grammar.rules)
    (filled : grammar.Filled) {last : Nat} (inside : last ≤ final.stateStacks.length)
    (done : final.left start last = []) :
    (sources final.pda).length = final.stateStacks.length := by
  have same : (sources final.pda).Perm
      ((List.range (final.stateStacks.length + 1)).erase last) := by
    refine (List.perm_ext_iff_of_nodup (nodup_eraseDups _)
      (List.nodup_range.erase last)).mpr fun state => ?_
    rw [List.nodup_range.mem_erase_iff, List.mem_range]
    constructor
    · intro source
      obtain ⟨transition, member, rfl⟩ := mem_sources.mp source
      have reached := (finished.sound transition member).1
      refine ⟨?_, by omega⟩
      rintro rfl
      exact (finished.mem_sources_iff unlimited greibach filled reached).mp source done
    · rintro ⟨different, within⟩
      have reached : state ≤ final.stateStacks.length := by omega
      refine (finished.mem_sources_iff unlimited greibach filled reached).mpr fun also => ?_
      exact different (finished.done_unique reached inside also done)
  rw [same.length_eq, List.length_erase_of_mem (List.mem_range.mpr (by omega)),
    List.length_range, Nat.add_sub_cancel]

/-- Without a limit `postprocess` writes all states down, and counts all but the
final one. -/
theorem Finished.postprocess_eq (finished : Finished grammar start stackLimit final)
    (unlimited : stackLimit.any (· != 0) = false) (greibach : Greibach grammar.rules)
    (filled : grammar.Filled) {last : Nat} (inside : last ≤ final.stateStacks.length)
    (done : final.left start last = []) :
    postprocess stackLimit final.pda =
      some ⟨0, last, final.stateStacks.length, memoized final.pda⟩ := by
  have begins : 0 ∈ sources final.pda := by
    rw [finished.mem_sources_iff unlimited greibach filled (Nat.zero_le _)]
    exact List.cons_ne_nil start []
  have counted : (memoized final.pda).length = final.stateStacks.length := by
    rw [memoized, List.length_map,
      finished.length_sources unlimited greibach filled inside done]
  rw [postprocess, initialState, finished.initials_eq begins,
    finished.finals_eq unlimited greibach filled inside done, unlimited, ← counted]
  rfl

end Construction

open Gramatron (Automaton Path Term Terminal Trigger genFrom genInput)

/-- What `create_pda` makes of the transitions of a state. -/
def triggersOf (final : Construction Term) (state : Nat) : List Trigger :=
  (final.pda.filter (·.source = state)).map fun transition =>
    ⟨transition.dest, loadTerm transition.terminal, loadTerm_noNul transition.terminal⟩

theorem foldlM_set {α β : Type} (load : β → α) {entries : List (Nat × β)} {init : List α}
    (distinct : (entries.map Prod.fst).Nodup)
    (inside : ∀ entry ∈ entries, entry.1 < init.length) :
    ∃ pda, entries.foldlM (fun pda entry =>
        if entry.1 < pda.length then some (pda.set entry.1 (load entry.2)) else none) init =
          some pda ∧
      pda.length = init.length ∧ (∀ entry ∈ entries, pda[entry.1]? = some (load entry.2)) ∧
      ∀ state, state ∉ entries.map Prod.fst → pda[state]? = init[state]? := by
  induction entries generalizing init with
  | nil => exact ⟨init, rfl, rfl, by simp, fun _ _ => rfl⟩
  | cons entry entries ih =>
      obtain ⟨absent, distinct⟩ := List.nodup_cons.mp distinct
      have fits := inside entry List.mem_cons_self
      have laterInside (other : Nat × β) (member : other ∈ entries) :
          other.1 < (init.set entry.1 (load entry.2)).length := by
        rw [List.length_set]
        exact inside other (List.mem_cons_of_mem _ member)
      obtain ⟨pda, ran, length, written, others⟩ := ih distinct laterInside
      refine ⟨pda, ?_, length.trans List.length_set, ?_, ?_⟩
      · rw [List.foldlM_cons, if_pos fits]
        exact ran
      · intro other member
        rcases List.mem_cons.mp member with rfl | member
        · rw [others _ absent, List.getElem?_set_self fits]
        · exact written other member
      · intro state notKey
        rw [List.map_cons, List.mem_cons, not_or] at notKey
        rw [others state notKey.2, List.getElem?_set_ne (Ne.symm notKey.1)]

/-- The automaton in the mutator's memory is the one that was written down. -/
def Loaded (stackLimit : Option Nat) (final : Construction Term) (aut : Automaton) : Prop :=
  ∃ automata, postprocess stackLimit final.pda = some automata ∧
    createPda automata = some aut.pda ∧ aut.initState = automata.initState ∧
    aut.finalState = automata.finalState

/-- The automaton has the transitions of the construction. -/
structure Reads (start : Name) (final : Construction Term) (aut : Automaton) : Prop where
  initState : aut.initState = 0
  inside : aut.finalState ≤ final.stateStacks.length
  done : final.left start aut.finalState = []
  pda : ∀ state ≤ final.stateStacks.length, aut.pda[state]? = some (triggersOf final state)

namespace Construction

variable {grammar : Grammar Term} {start : Name} {stackLimit : Option Nat}
  {final : Construction Term}

/-- `create_pda` stays inside its array and reads back all the transitions. -/
theorem Finished.createPda_eq (finished : Finished grammar start stackLimit final)
    (last : Nat) :
    ∃ pda, createPda ⟨0, last, final.stateStacks.length, memoized final.pda⟩ = some pda ∧
      pda.length = final.stateStacks.length + 1 ∧
      ∀ state ≤ final.stateStacks.length, pda[state]? = some (triggersOf final state) := by
  have keys : (memoized final.pda).map Prod.fst = sources final.pda := by
    simp [memoized, Function.comp_def]
  have within (entry : Nat × List ((Nat × Nat) × Nat × Term))
      (member : entry ∈ memoized final.pda) :
      entry.1 < (List.replicate (final.stateStacks.length + 1) ([] : List Trigger)).length := by
    have source : entry.1 ∈ sources final.pda := keys ▸ List.mem_map_of_mem member
    obtain ⟨transition, known, same⟩ := mem_sources.mp source
    have reached := (finished.sound transition known).1
    rw [List.length_replicate]
    omega
  obtain ⟨pda, ran, length, written, others⟩ := foldlM_set
    (fun triggers => triggers.map fun trigger : (Nat × Nat) × Nat × Term =>
      (⟨trigger.2.1, loadTerm trigger.2.2, loadTerm_noNul trigger.2.2⟩ : Trigger))
    (keys.symm ▸ nodup_eraseDups _) within
  refine ⟨pda, ran, length.trans List.length_replicate, fun state reached => ?_⟩
  by_cases source : state ∈ sources final.pda
  · have entry := written _ (List.mem_map_of_mem source)
    rw [entry, triggersOf, List.map_map]
    rfl
  · rw [others state (keys.symm ▸ source)]
    have none : triggersOf final state = [] := by
      rw [triggersOf, List.map_eq_nil_iff, List.filter_eq_nil_iff]
      intro transition member same
      exact source (mem_sources.mpr ⟨transition, member, of_decide_eq_true same⟩)
    rw [none, List.getElem?_replicate, if_pos (by omega)]

/-- What a grammar with a word is made into can be loaded, and meets all that the
mutator relies on. -/
theorem Finished.loads (finished : Finished grammar start stackLimit final)
    (unlimited : stackLimit.any (· != 0) = false) (greibach : Greibach grammar.rules)
    (filled : grammar.Filled) {last : Nat} (inside : last ≤ final.stateStacks.length)
    (done : final.left start last = []) :
    ∃ aut, Loaded stackLimit final aut ∧ Reads start final aut := by
  obtain ⟨pda, ran, length, triggers⟩ := finished.createPda_eq last
  have later : last ≠ 0 := by
    rintro rfl
    cases done
  have each (state : Nat) (found : List Trigger) (atState : pda[state]? = some found) :
      state ≤ final.stateStacks.length ∧ found = triggersOf final state := by
    have reached : state ≤ final.stateStacks.length := by
      have := (List.getElem?_eq_some_iff.mp atState).1
      omega
    rw [triggers state reached, Option.some.injEq] at atState
    exact ⟨reached, atState.symm⟩
  refine ⟨⟨pda, 0, last, later.symm, by omega, ?_, ?_⟩, ⟨_, finished.postprocess_eq unlimited
    greibach filled inside done, ran, rfl, rfl⟩, rfl, inside, done, triggers⟩
  · intro found member trigger inFound
    obtain ⟨state, atState⟩ := List.mem_iff_getElem?.mp member
    obtain ⟨_, rfl⟩ := each state found atState
    obtain ⟨transition, known, rfl⟩ := List.mem_map.mp inFound
    have reached := (finished.sound transition (List.mem_of_mem_filter known)).2.2.1
    exact .inr (by rw [length]; exact Nat.lt_succ_of_le reached)
  · intro state found atState notFinal
    obtain ⟨reached, rfl⟩ := each state found atState
    have source : state ∈ sources final.pda := by
      rw [finished.mem_sources_iff unlimited greibach filled reached]
      exact fun also => notFinal (finished.done_unique reached inside also done)
    obtain ⟨transition, member, same⟩ := mem_sources.mp source
    rw [triggersOf, ne_eq, List.map_eq_nil_iff]
    exact List.ne_nil_of_mem (List.mem_filter.mpr ⟨member, decide_eq_true same⟩)

end Construction

/-! ## What the mutator generates -/

section
variable {aut : Automaton}

variable {stackLimit : Option Nat} {final : Construction Term} {grammar : Grammar Term}
  {start : Name}

theorem Reads.silent (reads : Reads start final aut)
    (finished : Construction.Finished grammar start stackLimit final) {triggers : List Trigger}
    (atFinal : aut.pda[aut.finalState]? = some triggers) : triggers = [] := by
  rw [reads.pda _ reads.inside, Option.some.injEq] at atFinal
  rw [← atFinal, triggersOf, List.map_eq_nil_iff, List.filter_eq_nil_iff]
  intro transition member same
  obtain ⟨_, _, _, _, name, rest, _, top, _⟩ := finished.sound transition member
  rw [of_decide_eq_true same, reads.done] at top
  cases top

end

/-- The edges that the file has. -/
def Automata.Edge (automata : Automata T) (first : Nat) (token : T) (second : Nat) : Prop :=
  ∃ triggers trigger, (first, triggers) ∈ automata.pda ∧ (trigger, second, token) ∈ triggers

section
variable {grammar : Grammar T} {start : Name} {stackLimit : Option Nat} {final : Construction T}
  {automata : Automata T}

theorem edge_of_memoized {pda : List (Transition T)} {first second : Nat}
    {triggers : List ((Nat × Nat) × Nat × T)} {trigger : Nat × Nat} {token : T}
    (entry : (first, triggers) ∈ memoized pda) (member : (trigger, second, token) ∈ triggers) :
    ∃ transition ∈ pda, transition.source = first ∧ transition.terminal = token ∧
      transition.dest = second := by
  obtain ⟨state, _, same⟩ := List.mem_map.mp entry
  cases same
  obtain ⟨transition, known, same⟩ := List.mem_map.mp member
  cases same
  obtain ⟨inside, source⟩ := List.mem_filter.mp known
  exact ⟨transition, inside, of_decide_eq_true source, rfl, rfl⟩

/-- With a limit, the file starts where the construction starts, ends where
nothing is left, and has no edge of its own. -/
theorem Construction.Finished.postprocess_limited
    (finished : Construction.Finished grammar start stackLimit final)
    (limited : stackLimit.any (· != 0) = true)
    (written : postprocess stackLimit final.pda = some automata) :
    automata.initState = 0 ∧ final.left start automata.finalState = [] ∧
      ∀ first token second, automata.Edge first token second → final.Edge first token second := by
  simp only [postprocess, Option.bind_eq_bind, Option.bind_eq_some_iff, limited] at written
  obtain ⟨first, initialRan, written⟩ := written
  have isZero : first = 0 := by
    unfold initialState at initialRan
    split at initialRan
    · next state only =>
        have member : state ∈ initials final.pda := only ▸ List.mem_singleton_self state
        obtain ⟨source, notDest⟩ := List.mem_filter.mp member
        obtain ⟨transition, known, rfl⟩ := mem_sources.mp source
        have reached := (finished.sound transition known).1
        split at initialRan
        · cases initialRan
          cases number : transition.source with
          | zero => rfl
          | succ previous =>
              rw [number] at reached notDest
              exact absurd (mem_dests.mpr (finished.entered previous reached))
                (of_decide_eq_true notDest)
        · cases initialRan
    · cases initialRan
  simp only [if_true] at written
  split at written
  · next last only =>
      cases written
      refine ⟨isZero, ?_, ?_⟩
      · have member : last ∈ (finals final.pda).filter
            (· ∉ (finals final.pda).filter (blocked final.pda)) :=
          only ▸ List.mem_singleton_self last
        obtain ⟨isFinal, notBlocked⟩ := List.mem_filter.mp member
        have open_ : ¬ blocked final.pda last = true := fun blocked =>
          of_decide_eq_true notBlocked (List.mem_filter.mpr ⟨isFinal, blocked⟩)
        obtain ⟨transition, known, rfl⟩ := mem_dests.mp (List.mem_of_mem_filter isFinal)
        obtain ⟨_, _, _, same, _⟩ := finished.sound transition known
        have empty : transition.stack = [] := by
          by_contra something
          refine open_ (List.any_eq_true.mpr ⟨transition, known, ?_⟩)
          simpa [List.length_pos_iff] using something
        rw [empty] at same
        exact same.eq_nil
      · rintro first token second ⟨triggers, trigger, entry, member⟩
        obtain ⟨transition, known, facts⟩ := edge_of_memoized entry member
        obtain ⟨state, _, inside⟩ := List.mem_flatMap.mp (List.mem_of_mem_filter known)
        exact ⟨transition, List.mem_of_mem_filter inside, facts⟩
  · cases written

/-- With a limit the automaton loses words, but spells none that the grammar does
not, but for the order of the tokens. -/
theorem constructAutomata_limited {fuel : Nat} {word : List T}
    (limited : stackLimit.any (· != 0) = true)
    (constructed : constructAutomata grammar start stackLimit fuel = some final)
    (written : postprocess stackLimit final.pda = some automata)
    (walk : Walk automata.Edge automata.initState word automata.finalState) :
    ∃ other, Spells grammar.rules [.nonterminal start] other ∧ word.Perm other := by
  have finished := Construction.constructAutomata_finished constructed
  obtain ⟨initial, done, edges⟩ := finished.postprocess_limited limited written
  have within := walk.mono edges
  rw [initial] at within
  exact finished.accepts_spells ⟨_, within, done⟩

end

/-- `S: 'a' S B | 'd'`, `B: 'b'`. -/
def bracketed : Grammar Char where
  entries := [
    ("S", [[.terminal 'a', .nonterminal "S", .nonterminal "B"], [.terminal 'd']]),
    ("B", [[.terminal 'b']])]
  distinct := by decide

def bracketedConstruction : Construction Char :=
  (constructAutomata bracketed "S" (some 2) 10).get (by decide +kernel)

def bracketedAutomata : Automata Char :=
  (postprocess (some 2) bracketedConstruction.pda).get (by decide +kernel)

theorem constructAutomata_limited_bracketed :
    ∃ other, Spells bracketed.rules [.nonterminal "S"] other ∧ ['a', 'd', 'b'].Perm other := by
  have edge (first : Nat) (token : Char) (second : Nat)
      (found : ∃ triggers ∈ bracketedAutomata.pda, triggers.1 = first ∧
        ∃ trigger ∈ triggers.2, trigger.2 = (second, token)) :
      bracketedAutomata.Edge first token second := by
    obtain ⟨⟨_, triggers⟩, entry, rfl, ⟨name, _⟩, member, rfl⟩ := found
    exact ⟨triggers, name, entry, member⟩
  have walk : Walk bracketedAutomata.Edge 0 ['a', 'd', 'b'] 2 :=
    .cons (edge 0 'a' 1 (by decide +kernel)) (.cons (edge 1 'd' 3 (by decide +kernel))
      (.cons (edge 3 'b' 2 (by decide +kernel)) .nil))
  exact constructAutomata_limited rfl (Option.some_get _).symm (Option.some_get _).symm walk

section
variable {grammar : Grammar T} {start : Name} {stackLimit : Option Nat} {final : Construction T}

/-- All stacks of the names up to a length. -/
def stacksUpTo (names : List Name) : Nat → List (List Name)
  | 0 => [[]]
  | length + 1 =>
      [] :: names.flatMap fun name => (stacksUpTo names length).map (name :: ·)

theorem mem_stacksUpTo {names stack : List Name} {length : Nat} (fits : stack.length ≤ length)
    (known : ∀ name ∈ stack, name ∈ names) : stack ∈ stacksUpTo names length := by
  induction length generalizing stack with
  | zero =>
      rw [Nat.le_zero, List.length_eq_zero_iff] at fits
      simp [stacksUpTo, fits]
  | succ length ih =>
      cases stack with
      | nil => exact List.mem_cons_self
      | cons name stack =>
          refine List.mem_cons_of_mem _ (List.mem_flatMap.mpr ⟨name, known name (by simp), ?_⟩)
          refine List.mem_map.mpr ⟨stack, ih ?_ fun other member => known other (by simp [member]),
            rfl⟩
          simpa using fits

/-- The nonterminals in the rules. -/
def Grammar.mentioned (grammar : Grammar T) : List Name :=
  grammar.pairs.flatMap fun entry => entry.2.filterMap stackSymbol

theorem Grammar.mem_mentioned {name : Name}
    (mentioned : Construction.Mentioned grammar.rules name) : name ∈ grammar.mentioned := by
  obtain ⟨lhs, rule, known, inside⟩ := mentioned
  exact List.mem_flatMap.mpr ⟨(lhs, rule), known,
    List.mem_filterMap.mpr ⟨.nonterminal name, inside, rfl⟩⟩

/-- No more stacks than there are within the limit. -/
theorem Construction.Built.length_le {limit : Nat}
    (built : Construction.Built grammar.rules start (some limit) final) (positive : limit ≠ 0) :
    final.stateStacks.length ≤ (stacksUpTo grammar.mentioned limit).length := by
  have distinct : final.stateStacks.Nodup := by
    refine built.apart.imp ?_
    rintro first second apart rfl
    exact apart (.refl _)
  refine (List.subperm_of_subset distinct fun stack member => ?_).length_le
  exact mem_stacksUpTo (built.bounded limit rfl positive stack member) fun name inside =>
    Grammar.mem_mentioned (built.named stack member name inside)

/-- Every nonterminal that is used has an entry. -/
def Grammar.Closed (grammar : Grammar T) : Prop :=
  ∀ name, Construction.Mentioned grammar.rules name → ∃ bodies, grammar.lookup name = some bodies

theorem prepTransition_total {source : Nat} {nonterminal : Name}
    {current : Construction T × Nat} {token : T} {names : List Name} :
    ∃ next, prepTransition stackLimit source nonterminal current
      (.terminal token :: names.map .nonterminal) = some next := by
  have read := tokenize_eq_some_iff.mpr
    (rfl : (.terminal token :: names.map .nonterminal : Rule T) = _)
  simp only [prepTransition, Option.bind_eq_bind, read, Option.bind_some]
  split
  · exact ⟨_, rfl⟩
  · split
    · exact ⟨_, rfl⟩
    · exact ⟨_, rfl⟩

theorem prepTransitions_total (greibach : Greibach grammar.rules) {source : Nat}
    {state : Construction T} {stack : List Name}
    (defined : ∀ name ∈ stack, ∃ bodies, grammar.lookup name = some bodies) :
    ∃ next, prepTransitions grammar stackLimit state source stack = some next := by
  cases stack with
  | nil => exact ⟨state, rfl⟩
  | cons nonterminal rest =>
      obtain ⟨bodies, found⟩ := defined nonterminal List.mem_cons_self
      have total (current : Construction T × Nat) (rule : Rule T) (member : rule ∈ bodies) :
          ∃ next, prepTransition stackLimit source nonterminal current rule = some next := by
        obtain ⟨token, names, rfl⟩ :=
          greibach nonterminal rule ((Grammar.rules_of_lookup found).mpr member)
        exact prepTransition_total
      obtain ⟨⟨next, after⟩, ran⟩ := foldlM_total total (state, 1)
      exact ⟨next, by simp [prepTransitions, found, ran]⟩

/-- The measure of the loop: the stacks that may still come, and the states that
wait. -/
theorem construct_returns {limit fuel : Nat} {state : Construction T}
    (greibach : Greibach grammar.rules) (closed : grammar.Closed)
    (known : ∃ bodies, grammar.lookup start = some bodies) (positive : limit ≠ 0)
    (built : Construction.Built grammar.rules start (some limit) state)
    (enough : (stacksUpTo grammar.mentioned limit).length - state.stateStacks.length +
      state.worklist.length ≤ fuel) :
    ∃ final, construct grammar (some limit) fuel state = some final := by
  induction fuel generalizing state with
  | zero =>
      have empty : state.worklist = [] := List.length_eq_zero_iff.mp (by omega)
      exact ⟨state, by rw [construct, empty]⟩
  | succ fuel ih =>
      cases queue : state.worklist with
      | nil => exact ⟨state, by rw [construct, queue]⟩
      | cons entry worklist =>
          obtain ⟨inside, same⟩ := built.waiting entry (by simp [queue])
          have popped := built.pop queue
          have defined (name : Name) (member : name ∈ entry.2) :
              ∃ bodies, grammar.lookup name = some bodies := by
            rw [same] at member
            cases number : entry.1 with
            | zero =>
                rw [number] at member
                exact List.mem_singleton.mp member ▸ known
            | succ previous =>
                rw [number] at member inside
                rw [Construction.left_succ inside] at member
                exact closed name (built.named _ (List.getElem_mem inside) name member)
          obtain ⟨next, prepared⟩ : ∃ next, prepTransitions grammar (some limit)
              { state with worklist } entry.1 entry.2 = some next :=
            prepTransitions_total greibach defined
          have ran := prepared
          rw [same] at ran
          obtain ⟨adds, after, _⟩ := Construction.prepTransitions_spec popped inside ran
          have more := after.length_le positive
          have added := adds.added
          rw [queue, List.length_cons] at enough
          obtain ⟨final, ended⟩ := ih after (by
            dsimp only at added
            omega)
          refine ⟨final, ?_⟩
          rw [construct, queue]
          simp only [prepared, Option.bind_eq_bind, Option.bind_some]
          exact ended

/-- With a stack limit the construction ends, whatever the grammar derives. -/
theorem constructAutomata_returns {limit : Nat} (greibach : Greibach grammar.rules)
    (closed : grammar.Closed) (known : ∃ bodies, grammar.lookup start = some bodies)
    (positive : limit ≠ 0) :
    ∃ final, constructAutomata grammar start (some limit)
      ((stacksUpTo grammar.mentioned limit).length + 1) = some final :=
  construct_returns greibach closed known positive Construction.built_initial (by
    simp [Construction.initial])

end

theorem constructAutomata_returns_bracketed : ∃ final, constructAutomata bracketed "S" (some 2)
    ((stacksUpTo bracketed.mentioned 2).length + 1) = some final := by
  have greibach : Greibach bracketed.rules := greibach_of_tokenize (by decide)
  have closed : bracketed.Closed := by
    intro name mentioned
    have known : ∀ name ∈ bracketed.mentioned, (bracketed.lookup name).isSome = true := by decide
    exact Option.isSome_iff_exists.mp (known name (Grammar.mem_mentioned mentioned))
  exact constructAutomata_returns greibach closed ⟨_, rfl⟩ (by decide)

end SbFuzz.CustomMutators.ConstructAutomata
