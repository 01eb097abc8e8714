import Mathlib.Computability.ContextFreeGrammar

/-! Context-free rules by what they spell, in one big step, and automata that
keep the rest of a leftmost derivation in their states. -/

set_option autoImplicit false

namespace SbFuzz.Systems.Grammars

/-- The bodies of each nonterminal. -/
abbrev Rules (T N : Type) := N → List (Symbol T N) → Prop

/-- The rules spell a word from a body. -/
inductive Spells {T N : Type} (rules : Rules T N) : List (Symbol T N) → List T → Prop where
  | nil : Spells rules [] []
  | terminal {token : T} {rest : List (Symbol T N)} {word : List T} : Spells rules rest word →
      Spells rules (.terminal token :: rest) (token :: word)
  | nonterminal {name : N} {body rest : List (Symbol T N)} {left right : List T} :
      rules name body → Spells rules body left → Spells rules rest right →
      Spells rules (.nonterminal name :: rest) (left ++ right)

section
variable {T N : Type} {rules : Rules T N} {name : N} {body rest : List (Symbol T N)}
  {word : List T}

theorem Spells.append {front back : List (Symbol T N)} {left right : List T}
    (first : Spells rules front left) (second : Spells rules back right) :
    Spells rules (front ++ back) (left ++ right) := by
  induction first with
  | nil => exact second
  | terminal _ ih => exact .terminal ih
  | nonterminal rule spelled _ _ ih =>
      rw [List.append_assoc]
      exact .nonterminal rule spelled ih

theorem spells_append_iff {front back : List (Symbol T N)} :
    Spells rules (front ++ back) word ↔
      ∃ left right, word = left ++ right ∧ Spells rules front left ∧
        Spells rules back right := by
  constructor
  · intro spelled
    induction front generalizing word with
    | nil => exact ⟨[], word, rfl, .nil, spelled⟩
    | cons symbol front ih =>
        rw [List.cons_append] at spelled
        cases spelled with
        | terminal spelled =>
            obtain ⟨left, right, rfl, first, second⟩ := ih spelled
            exact ⟨_ :: left, right, rfl, .terminal first, second⟩
        | nonterminal rule own spelled =>
            obtain ⟨left, right, rfl, first, second⟩ := ih spelled
            exact ⟨_, right, (List.append_assoc ..).symm, .nonterminal rule own first, second⟩
  · rintro ⟨left, right, rfl, first, second⟩
    exact first.append second

@[simp] theorem spells_nil_iff : Spells rules [] word ↔ word = [] := by
  constructor
  · intro spelled
    cases spelled
    rfl
  · rintro rfl
    exact .nil

theorem spells_terminal_iff {token : T} :
    Spells rules (.terminal token :: rest) word ↔
      ∃ later, word = token :: later ∧ Spells rules rest later := by
  constructor
  · intro spelled
    cases spelled with
    | terminal spelled => exact ⟨_, rfl, spelled⟩
  · rintro ⟨later, rfl, spelled⟩
    exact .terminal spelled

theorem spells_nonterminal_iff :
    Spells rules [.nonterminal name] word ↔
      ∃ body, rules name body ∧ Spells rules body word := by
  constructor
  · intro spelled
    generalize same : [Symbol.nonterminal name] = front at spelled
    cases spelled with
    | nil => cases same
    | terminal => cases same
    | nonterminal rule own nothing =>
        cases same
        rw [spells_nil_iff] at nothing
        subst nothing
        exact ⟨_, rule, by rwa [List.append_nil]⟩
  · rintro ⟨body, rule, own⟩
    simpa using Spells.nonterminal rule own .nil

theorem spells_cons_iff {symbol : Symbol T N} :
    Spells rules (symbol :: rest) word ↔
      ∃ left right, word = left ++ right ∧ Spells rules [symbol] left ∧
        Spells rules rest right := by
  rw [← List.singleton_append, spells_append_iff]

/-! ## Automata that keep a stack of nonterminals -/

/-- Every body is a token and nonterminals behind it. -/
def Greibach (rules : Rules T N) : Prop :=
  ∀ name body, rules name body →
    ∃ (token : T) (names : List N), body = .terminal token :: names.map .nonterminal

variable {Q : Type}

/-- A walk along labelled edges. -/
inductive Walk (edges : Q → T → Q → Prop) : Q → List T → Q → Prop where
  | nil {state : Q} : Walk edges state [] state
  | cons {first second last : Q} {token : T} {word : List T} : edges first token second →
      Walk edges second word last → Walk edges first (token :: word) last

variable {edges : Q → T → Q → Prop} {stack : Q → List N} {states : Q → Prop}

theorem Walk.stays {first last : Q} (walk : Walk edges first word last)
    (closed : ∀ first token second, states first → edges first token second → states second)
    (start : states first) : states last := by
  induction walk with
  | nil => exact start
  | cons edge _ ih => exact ih (closed _ _ _ start edge)

theorem Walk.mono {more : Q → T → Q → Prop} {first last : Q} (walk : Walk edges first word last)
    (all : ∀ first token second, edges first token second → more first token second) :
    Walk more first word last := by
  induction walk with
  | nil => exact .nil
  | cons edge _ ih => exact .cons (all _ _ _ edge) ih

/-- How far stacks and words may differ: what a stack spells, every near one spells
alike. -/
structure Keeps (rules : Rules T N) (near : List N → List N → Prop)
    (alike : List T → List T → Prop) : Prop where
  refl : ∀ word, alike word word
  trans : ∀ {first second third : List T}, alike first second → alike second third →
    alike first third
  cons : ∀ (token : T) {first second : List T}, alike first second →
    alike (token :: first) (token :: second)
  length : ∀ {first second : List T}, alike first second → first.length = second.length
  spells : ∀ {first second : List N} {word : List T}, near first second →
    Spells rules (first.map .nonterminal) word →
    ∃ other, Spells rules (second.map .nonterminal) other ∧ alike word other

theorem Keeps.eq (rules : Rules T N) : Keeps rules Eq Eq where
  refl _ := rfl
  trans := Eq.trans
  cons token _ _ same := congrArg (token :: ·) same
  length := congrArg List.length
  spells same spelled := ⟨_, same ▸ spelled, rfl⟩

/-- The symbols of a body in another order spell the pieces of the word in that
order. -/
theorem Spells.perm {front back : List (Symbol T N)} (perm : front.Perm back)
    (spelled : Spells rules front word) :
    ∃ other, Spells rules back other ∧ word.Perm other := by
  induction perm generalizing word with
  | nil => exact ⟨word, spelled, .refl _⟩
  | cons symbol _ ih =>
      obtain ⟨left, right, rfl, first, second⟩ := spells_cons_iff.mp spelled
      obtain ⟨other, second, same⟩ := ih second
      exact ⟨left ++ other, spells_cons_iff.mpr ⟨left, other, rfl, first, second⟩,
        same.append_left left⟩
  | swap one two rest =>
      obtain ⟨left, right, rfl, first, second⟩ := spells_cons_iff.mp spelled
      obtain ⟨middle, right, rfl, second, third⟩ := spells_cons_iff.mp second
      refine ⟨middle ++ (left ++ right), spells_cons_iff.mpr ⟨middle, _, rfl, second,
        spells_cons_iff.mpr ⟨left, right, rfl, first, third⟩⟩, ?_⟩
      rw [← List.append_assoc, ← List.append_assoc]
      exact List.perm_append_comm.append_right right
  | trans _ _ firstIH secondIH =>
      obtain ⟨middle, spelled, same⟩ := firstIH spelled
      obtain ⟨other, spelled, alike⟩ := secondIH spelled
      exact ⟨other, spelled, same.trans alike⟩

theorem Keeps.perm (rules : Rules T N) : Keeps rules List.Perm List.Perm where
  refl := .refl
  trans := .trans
  cons token _ _ same := same.cons token
  length := List.Perm.length_eq
  spells same spelled := spelled.perm (same.map _)

variable {near : List N → List N → Prop} {alike : List T → List T → Prop}

/-- Every edge takes the top nonterminal of the stack for one of its bodies. -/
def Follows (rules : Rules T N) (edges : Q → T → Q → Prop) (stack : Q → List N)
    (near : List N → List N → Prop) : Prop :=
  ∀ first token second, edges first token second → ∃ name rest names,
    stack first = name :: rest ∧ rules name (.terminal token :: names.map .nonterminal) ∧
      near (stack second) (names ++ rest)

/-- Every body of the top nonterminal has its edge. -/
structure Covers (rules : Rules T N) (edges : Q → T → Q → Prop) (stack : Q → List N)
    (states : Q → Prop) (near : List N → List N → Prop) : Prop where
  stays : ∀ first token second, states first → edges first token second → states second
  edge : ∀ first name rest token names, states first → stack first = name :: rest →
    rules name (.terminal token :: names.map .nonterminal) →
    ∃ second, edges first token second ∧ near (names ++ rest) (stack second)

/-- A walk to an empty stack spells a word of the stack it starts from. -/
theorem Follows.spells (follows : Follows rules edges stack near)
    (keeps : Keeps rules near alike) {first last : Q} (walk : Walk edges first word last)
    (ends : stack last = []) :
    ∃ other, Spells rules ((stack first).map .nonterminal) other ∧ alike word other := by
  induction walk with
  | nil => exact ⟨[], by simp [ends], keeps.refl _⟩
  | @cons _ _ _ token _ edge _ ih =>
      obtain ⟨name, rest, names, top, rule, after⟩ := follows _ _ _ edge
      obtain ⟨later, spelled, same⟩ := ih ends
      obtain ⟨other, spelled, alike⟩ := keeps.spells after spelled
      rw [List.map_append] at spelled
      obtain ⟨left, right, rfl, own, others⟩ := spells_append_iff.mp spelled
      refine ⟨token :: left ++ right, ?_, keeps.cons token (keeps.trans same alike)⟩
      rw [top]
      exact .nonterminal rule (.terminal own) others

/-- A word of a stack takes a token for its top nonterminal first. -/
theorem Greibach.top (greibach : Greibach rules) {names : List N}
    (spelled : Spells rules (names.map .nonterminal) word) :
    (names = [] ∧ word = []) ∨ ∃ name rest token inner later, names = name :: rest ∧
      word = token :: later ∧ rules name (.terminal token :: inner.map .nonterminal) ∧
      Spells rules ((inner ++ rest).map .nonterminal) later := by
  cases names with
  | nil => exact .inl ⟨rfl, spells_nil_iff.mp spelled⟩
  | cons name rest =>
      obtain ⟨left, right, rfl, own, others⟩ := spells_cons_iff.mp spelled
      obtain ⟨body, rule, own⟩ := spells_nonterminal_iff.mp own
      obtain ⟨token, inner, rfl⟩ := greibach name body rule
      obtain ⟨later, rfl, spelledInner⟩ := spells_terminal_iff.mp own
      refine .inr ⟨name, rest, token, inner, later ++ right, rfl, rfl, rule, ?_⟩
      rw [List.map_append]
      exact spelledInner.append others

/-- Every word of the stack has a walk. The induction is on the word's length, as
each step may change its order. -/
theorem Covers.walks (covers : Covers rules edges stack states near)
    (keeps : Keeps rules near alike) (greibach : Greibach rules) {first : Q}
    (start : states first) (spelled : Spells rules ((stack first).map .nonterminal) word) :
    ∃ other last, Walk edges first other last ∧ stack last = [] ∧ alike word other := by
  induction length : word.length generalizing word first with
  | zero =>
      rw [List.length_eq_zero_iff] at length
      subst length
      rcases greibach.top spelled with ⟨empty, _⟩ | ⟨_, _, _, _, _, _, same, _⟩
      · exact ⟨[], first, .nil, empty, keeps.refl _⟩
      · cases same
  | succ count ih =>
      rcases greibach.top spelled with ⟨_, rfl⟩ | ⟨name, rest, token, inner, later, top, rfl, rule,
        spelledLater⟩
      · cases length
      · obtain ⟨second, edge, after⟩ := covers.edge first name rest token inner start top rule
        obtain ⟨other, spelledOther, same⟩ := keeps.spells after spelledLater
        have shorter : other.length = count := by
          rw [← keeps.length same]
          exact Nat.succ.inj length
        obtain ⟨found, last, walk, ends, alike⟩ :=
          ih (covers.stays first token second start edge) spelledOther shorter
        exact ⟨token :: found, last, .cons edge walk, ends,
          keeps.cons token (keeps.trans same alike)⟩

end

end SbFuzz.Systems.Grammars
