import Mathlib.Logic.Basic

/-! Computations on a state that may stop early, and rules for what they ensure. -/

set_option autoImplicit false

namespace SbFuzz.Systems

variable {State Stop α β : Type}

def Program (State Stop α : Type) : Type := State → Except Stop α × State

namespace Program

protected def pure (value : α) : Program State Stop α := fun st => (.ok value, st)

protected def bind (first : Program State Stop α) (next : α → Program State Stop β) :
    Program State Stop β := fun st =>
  match first st with
  | (.ok value, st) => next value st
  | (.error reason, st) => (.error reason, st)

instance : Monad (Program State Stop) where
  pure := Program.pure
  bind := Program.bind

def stop (reason : Stop) : Program State Stop α := fun st => (.error reason, st)

def look : Program State Stop State := fun st => (.ok st, st)

def update (change : State → State) : Program State Stop Unit := fun st => (.ok (), change st)

/-- What is changed back whether or not the program stops. -/
def always (program : Program State Stop α) (change : State → State) : Program State Stop α :=
  fun st => match program st with
    | (result, st) => (result, change st)

def each (body : α → Program State Stop Unit) : List α → Program State Stop Unit
  | [] => pure ()
  | item :: rest => do
      body item
      each body rest

/-- From a state with the first property the program returns in one with the second,
or stops in one with the third. -/
def Ensures (pre : State → Prop) (program : Program State Stop α) (post : α → State → Prop)
    (stopped : Stop → State → Prop) : Prop := ∀ st, pre st →
  match program st with
  | (.ok value, after) => post value after
  | (.error reason, after) => stopped reason after

variable {pre : State → Prop} {program : Program State Stop α} {post : α → State → Prop}
  {after : β → State → Prop} {stopped : Stop → State → Prop}

theorem Ensures.pure {value : α} (holds : ∀ st, pre st → post value st) :
    Ensures pre (pure value) post stopped := holds

theorem Ensures.bind {next : α → Program State Stop β} (post : α → State → Prop)
    (first : Ensures pre program post stopped)
    (later : ∀ value, Ensures (post value) (next value) after stopped) :
    Ensures pre (program >>= next) after stopped := by
  intro st holds
  have done := first st holds
  change match Program.bind program next st with
    | (.ok value, last) => after value last
    | (.error reason, last) => stopped reason last
  unfold Program.bind
  split at done
  · next value st' _ => exact later value st' done
  · exact done

theorem Ensures.stop {reason : Stop} (holds : ∀ st, pre st → stopped reason st) :
    Ensures pre (stop reason) post stopped := holds

theorem Ensures.update {change : State → State} {post : Unit → State → Prop}
    (holds : ∀ st, pre st → post () (change st)) :
    Ensures pre (update change) post stopped := holds

theorem Ensures.look {post : State → State → Prop} (holds : ∀ st, pre st → post st st) :
    Ensures pre look post stopped := holds

theorem Ensures.always {change : State → State} (ensures : Ensures pre program post stopped)
    (posts : ∀ value st, post value st → post value (change st))
    (stops : ∀ reason st, stopped reason st → stopped reason (change st)) :
    Ensures pre (always program change) post stopped := by
  intro st holds
  have done := ensures st holds
  unfold Program.always
  cases result : program st with
  | mk returned after =>
      rw [result] at done
      cases returned with
      | ok value => exact posts value after done
      | error reason => exact stops reason after done

theorem Ensures.mono {weaker : α → State → Prop} {also : Stop → State → Prop}
    (ensures : Ensures pre program post stopped)
    (imp : ∀ value st, post value st → weaker value st)
    (stops : ∀ reason st, stopped reason st → also reason st) :
    Ensures pre program weaker also := by
  intro st holds
  have done := ensures st holds
  split at done
  · exact imp _ _ done
  · exact stops _ _ done

theorem Ensures.of {stronger : State → Prop} (ensures : Ensures pre program post stopped)
    (imp : ∀ st, stronger st → pre st) : Ensures stronger program post stopped :=
  fun st holds => ensures st (imp st holds)

theorem Ensures.and {also : α → State → Prop} {stopped' : Stop → State → Prop}
    (first : Ensures pre program post stopped) (second : Ensures pre program also stopped') :
    Ensures pre program (fun value st => post value st ∧ also value st)
      (fun reason st => stopped reason st ∧ stopped' reason st) := by
  intro st holds
  have done := first st holds
  have done' := second st holds
  split at done
  · next eq => rw [eq] at done'; exact ⟨done, done'⟩
  · next eq => rw [eq] at done'; exact ⟨done, done'⟩

/-- What is known of every state apart from the program's run is known beforehand. -/
theorem Ensures.fixed (each : ∀ st, pre st → Ensures (· = st) program post stopped) :
    Ensures pre program post stopped := fun st holds => each st holds st rfl

theorem Ensures.ite {condition : Prop} [Decidable condition] {other : Program State Stop α}
    (yes : condition → Ensures pre program post stopped)
    (no : ¬condition → Ensures pre other post stopped) :
    Ensures pre (if condition then program else other) post stopped := by
  split
  · next holds => exact yes holds
  · next fails => exact no fails

/-- What every turn keeps is kept by all of them. -/
theorem Ensures.each {body : α → Program State Stop Unit} {items : List α}
    (turn : ∀ item ∈ items, Ensures pre (body item) (fun _ => pre) stopped) :
    Ensures pre (each body items) (fun _ => pre) stopped := by
  induction items with
  | nil => exact .pure fun _ holds => holds
  | cons item rest ih =>
      exact .bind (fun _ => pre) (turn item List.mem_cons_self) fun _ =>
        ih fun other member => turn other (List.mem_cons_of_mem _ member)

theorem Ensures.returned (ensures : Ensures pre program post stopped) {st : State} (holds : pre st)
    {value : α} (result : (program st).1 = .ok value) : post value (program st).2 := by
  have done := ensures st holds
  split at done
  · next eq => rw [eq] at result ⊢; cases result; exact done
  · next eq => rw [eq] at result; cases result

theorem Ensures.stops (ensures : Ensures pre program post stopped) {st : State} (holds : pre st)
    {reason : Stop} (result : (program st).1 = .error reason) : stopped reason (program st).2 := by
  have done := ensures st holds
  split at done
  · next eq => rw [eq] at result; cases result
  · next eq => rw [eq] at result ⊢; cases result; exact done

-- Otherwise a rule whose program is not known yet is unified by running it.
attribute [irreducible] Ensures

end Program

end SbFuzz.Systems
