import Mathlib.Data.List.Basic
import Mathlib.Logic.Basic

/-! Finite runs of machines whose nondeterminism is carried by their actions:
an action that a state does not admit has no successor. -/

set_option autoImplicit false

namespace SbFuzz.Systems

/-- An action-driven machine. `step state action = none` says that the action
is not enabled in that state. -/
structure Machine (State Action : Type) where
  initial : State
  step : State → Action → Option State

namespace Machine

variable {State Action : Type} (machine : Machine State Action)

def runFrom (state : State) : List Action → Option State
  | [] => some state
  | action :: rest => (machine.step state action).bind fun next => runFrom next rest

def run (actions : List Action) : Option State := machine.runFrom machine.initial actions

/-- A state reached by some finite sequence of enabled actions. -/
def Reachable (state : State) : Prop := ∃ actions, machine.run actions = some state

@[simp] theorem runFrom_nil (state : State) : machine.runFrom state [] = some state := rfl

@[simp] theorem runFrom_cons (state : State) (action : Action) (rest : List Action) :
    machine.runFrom state (action :: rest) =
      (machine.step state action).bind fun next => machine.runFrom next rest := rfl

theorem runFrom_append (state : State) (first second : List Action) :
    machine.runFrom state (first ++ second) =
      (machine.runFrom state first).bind fun middle => machine.runFrom middle second := by
  induction first generalizing state with
  | nil => rfl
  | cons action rest ih =>
      rw [List.cons_append, runFrom_cons, runFrom_cons, Option.bind_assoc]
      exact congrArg _ (funext ih)

/-- A property that the initial state has and that every allowed action keeps
holds after every run of allowed actions. -/
theorem run_invariant_of_allowed (Allowed : Action → Prop) (Inv : State → Prop)
    (start : Inv machine.initial)
    (preserved : ∀ state action next, Inv state → Allowed action →
      machine.step state action = some next → Inv next)
    {actions : List Action} {final : State} (allowed : ∀ action ∈ actions, Allowed action)
    (ran : machine.run actions = some final) : Inv final := by
  have loop : ∀ (actions : List Action) (state : State), Inv state →
      (∀ action ∈ actions, Allowed action) → machine.runFrom state actions = some final →
      Inv final := by
    intro actions
    induction actions with
    | nil =>
        intro state valid _ finished
        simp only [runFrom_nil, Option.some.injEq] at finished
        exact finished ▸ valid
    | cons action rest ih =>
        intro state valid allowed finished
        rw [runFrom_cons, Option.bind_eq_some_iff] at finished
        obtain ⟨next, stepped, finished⟩ := finished
        have nextValid := preserved state action next valid (allowed action (by simp)) stepped
        exact ih next nextValid (fun other member => allowed other (by simp [member])) finished
  exact loop actions machine.initial start allowed ran

/-- Every action of the sequence is one that the state it meets admits. -/
def Admitted (Admits : State → Action → Prop) : State → List Action → Prop
  | _, [] => True
  | state, action :: rest =>
      Admits state action ∧
        ∀ next, machine.step state action = some next → Admitted Admits next rest

variable {machine} in
theorem Admitted.cons {Admits : State → Action → Prop} {state next : State} {action : Action}
    {rest : List Action} (admits : Admits state action)
    (stepped : machine.step state action = some next)
    (later : machine.Admitted Admits next rest) : machine.Admitted Admits state (action :: rest) := by
  refine ⟨admits, fun other reached => ?_⟩
  rw [stepped] at reached
  exact Option.some.inj reached ▸ later

/-- Actions that every state admits. -/
theorem admitted_of_forall {Admits : State → Action → Prop} {actions : List Action} (state : State)
    (all : ∀ state, ∀ action ∈ actions, Admits state action) :
    machine.Admitted Admits state actions := by
  induction actions generalizing state with
  | nil => trivial
  | cons action rest ih =>
      exact ⟨all state action (by simp), fun next _ =>
        ih next fun state other member => all state other (by simp [member])⟩

variable {machine} in
theorem Admitted.mono {Admits Weaker : State → Action → Prop}
    (weaker : ∀ state action, Admits state action → Weaker state action) {state : State}
    {actions : List Action} (admitted : machine.Admitted Admits state actions) :
    machine.Admitted Weaker state actions := by
  induction actions generalizing state with
  | nil => trivial
  | cons action rest ih =>
      exact ⟨weaker state action admitted.1, fun next stepped => ih (admitted.2 next stepped)⟩

/-- Whether a sequence is admitted can be computed along its run. -/
instance decidableAdmitted (Admits : State → Action → Prop)
    [∀ state action, Decidable (Admits state action)] (state : State) :
    (actions : List Action) → Decidable (machine.Admitted Admits state actions)
  | [] => .isTrue trivial
  | action :: rest =>
      match stepped : machine.step state action with
      | none => decidable_of_iff (Admits state action) <| by
          simp only [Admitted, stepped, reduceCtorEq, false_implies, implies_true, and_true]
      | some next =>
          have := decidableAdmitted Admits next rest
          decidable_of_iff (Admits state action ∧ machine.Admitted Admits next rest) <| by
            simp only [Admitted, stepped, Option.some.injEq, forall_eq']

/-- The allowed actions may depend on the state. -/
theorem runFrom_invariant_of_admitted {Admits : State → Action → Prop} (Inv : State → Prop)
    (preserved : ∀ state action next, Inv state → Admits state action →
      machine.step state action = some next → Inv next)
    {actions : List Action} {state final : State} (start : Inv state)
    (admitted : machine.Admitted Admits state actions)
    (ran : machine.runFrom state actions = some final) : Inv final := by
  induction actions generalizing state with
  | nil =>
      simp only [runFrom_nil, Option.some.injEq] at ran
      exact ran ▸ start
  | cons action rest ih =>
      rw [runFrom_cons, Option.bind_eq_some_iff] at ran
      obtain ⟨next, stepped, ran⟩ := ran
      exact ih (preserved state action next start admitted.1 stepped) (admitted.2 next stepped) ran

theorem runFrom_invariant (Inv : State → Prop)
    (preserved : ∀ state action next, Inv state → machine.step state action = some next →
      Inv next)
    {actions : List Action} {state final : State} (start : Inv state)
    (ran : machine.runFrom state actions = some final) : Inv final := by
  have every : machine.Admitted (fun _ _ => True) state actions :=
    machine.admitted_of_forall state fun _ _ _ => trivial
  exact machine.runFrom_invariant_of_admitted Inv
    (fun state action next valid _ stepped => preserved state action next valid stepped)
    start every ran

theorem reachable_invariant (Inv : State → Prop) (start : Inv machine.initial)
    (preserved : ∀ state action next, Inv state → machine.step state action = some next →
      Inv next)
    {final : State} (reachable : machine.Reachable final) : Inv final := by
  obtain ⟨actions, ran⟩ := reachable
  exact machine.runFrom_invariant Inv preserved start ran

/-- Where every state short of the goal has an allowed action that lowers a
rank, some run of allowed actions reaches the goal. -/
theorem exists_runFrom_of_rank (Allowed : Action → Prop) (Inv Goal : State → Prop)
    (rank : State → Nat)
    (advances : ∀ state, Inv state → ¬ Goal state → ∃ action next, Allowed action ∧
      machine.step state action = some next ∧ Inv next ∧ rank next < rank state)
    {state : State} (start : Inv state) :
    ∃ actions final, (∀ action ∈ actions, Allowed action) ∧
      machine.runFrom state actions = some final ∧ Goal final := by
  induction bound : rank state using Nat.strongRecOn generalizing state with
  | ind height ih =>
      by_cases goal : Goal state
      · exact ⟨[], state, by simp, rfl, goal⟩
      · obtain ⟨action, next, allowed, stepped, valid, lower⟩ := advances state start goal
        obtain ⟨rest, final, others, ran, reached⟩ := ih (rank next) (bound ▸ lower) valid rfl
        refine ⟨action :: rest, final, ?_, ?_, reached⟩
        · intro other member
          rcases List.mem_cons.mp member with rfl | member
          · exact allowed
          · exact others other member
        · rw [runFrom_cons, stepped, Option.bind_some, ran]

/-- Nothing follows a state that admits no action. -/
theorem runFrom_of_stuck {state final : State} (stuck : ∀ action, machine.step state action = none)
    {actions : List Action} (ran : machine.runFrom state actions = some final) :
    final = state := by
  cases actions with
  | nil => exact (Option.some.inj ran).symm
  | cons action rest => rw [runFrom_cons, stuck action] at ran; cases ran

end Machine

end SbFuzz.Systems
