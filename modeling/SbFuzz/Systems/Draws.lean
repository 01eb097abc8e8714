import Mathlib.Data.List.Basic

/-! Computations that draw numbers from a given list and may stop: because the
list ends, because the program exits, or because it leaves its memory. -/

set_option autoImplicit false

namespace SbFuzz.Systems

inductive Stop where
  | outOfChoices
  | exited
  | crashed
  deriving DecidableEq

def Draws (α : Type) : Type := List Nat → Except Stop (α × List Nat)

namespace Draws

variable {α β γ : Type}

protected def pure (value : α) : Draws α := fun choices => .ok (value, choices)

protected def bind (first : Draws α) (next : α → Draws β) : Draws β := fun choices =>
  match first choices with
  | .ok (value, rest) => next value rest
  | .error stop => .error stop

instance : Monad Draws where
  pure := Draws.pure
  bind := Draws.bind

def stop (reason : Stop) : Draws α := fun _ => .error reason

def fetch : Option α → Draws α
  | some value => pure value
  | none => stop .crashed

/-- A number below `limit`, 0 for the limits 0 and 1. -/
def below (limit : Nat) : Draws Nat
  | [] => .error .outOfChoices
  | choice :: choices => .ok (if limit ≤ 1 then 0 else choice % limit, choices)

/-- Numbers below `limit` until one differs from `avoid`. -/
def belowExcept (limit avoid : Nat) : Draws Nat
  | [] => .error .outOfChoices
  | choice :: choices =>
    let drawn := if limit ≤ 1 then 0 else choice % limit
    if drawn = avoid then belowExcept limit avoid choices else .ok (drawn, choices)

/-- Numbers below `limit` until one is accepted. -/
def belowUntil (limit : Nat) (accept : Nat → Bool) : Draws Nat
  | [] => .error .outOfChoices
  | choice :: choices =>
    let drawn := if limit ≤ 1 then 0 else choice % limit
    if accept drawn then .ok (drawn, choices) else belowUntil limit accept choices

def word : Draws Nat
  | [] => .error .outOfChoices
  | choice :: choices => .ok (choice % 0x10000000000000000, choices)

/-! ## Equal computations -/

protected theorem bind_pure_right (computation : Draws α) :
    Draws.bind computation Draws.pure = computation := by
  funext choices
  unfold Draws.bind
  cases computation choices <;> rfl

protected theorem bind_assoc (computation : Draws α) (next : α → Draws β) (last : β → Draws γ) :
    Draws.bind (Draws.bind computation next) last =
      Draws.bind computation fun value => Draws.bind (next value) last := by
  funext choices
  unfold Draws.bind
  cases computation choices <;> rfl

instance : LawfulMonad Draws := .mk' Draws Draws.bind_pure_right (fun _ _ => rfl) Draws.bind_assoc

/-- What the computation returns has the property, and it crashes only where
that is allowed. -/
def Returns (crashes : Prop) (post : α → Prop) (computation : Draws α) : Prop := ∀ choices,
  match computation choices with
  | .ok (value, _) => post value
  | .error reason => reason = .crashed → crashes

variable {crashes : Prop} {post : α → Prop} {after : β → Prop}

def ReturnsOn (choices : List Nat) (crashes : Prop) (post : α → Prop) (computation : Draws α) :
    Prop :=
  match computation choices with
  | .ok (value, _) => post value
  | .error reason => reason = .crashed → crashes

/-- What follows may rely on what was returned for these very choices. -/
theorem ReturnsOn.bind {choices : List Nat} {first : Draws α} {next : α → Draws β}
    (start : ReturnsOn choices crashes post first)
    (later : ∀ value rest, first choices = .ok (value, rest) → post value →
      ReturnsOn rest crashes after (next value)) :
    ReturnsOn choices crashes after (first >>= next) := by
  unfold ReturnsOn at start
  change match Draws.bind first next choices with
    | .ok (value, _) => after value
    | .error reason => reason = .crashed → crashes
  unfold Draws.bind
  cases result : first choices with
  | ok pair =>
      rw [result] at start
      exact later pair.1 pair.2 result start
  | error reason =>
      rw [result] at start
      exact start

theorem Returns.pure {value : α} (holds : post value) : Returns crashes post (pure value) :=
  fun _ => holds

theorem Returns.bind {first : Draws α} {next : α → Draws β} (start : Returns crashes post first)
    (later : ∀ value, post value → Returns crashes after (next value)) :
    Returns crashes after (first >>= next) :=
  fun choices => ReturnsOn.bind (start choices) fun value rest _ holds => later value holds rest

theorem Returns.mono {computation : Draws α} {weaker : α → Prop}
    (returns : Returns crashes post computation) (imp : ∀ value, post value → weaker value) :
    Returns crashes weaker computation := by
  intro choices
  have returned := returns choices
  cases result : computation choices with
  | ok pair =>
      rw [result] at returned
      exact imp pair.1 returned
  | error reason =>
      rw [result] at returned
      exact returned

theorem Returns.and {computation : Draws α} {other : α → Prop}
    (returns : Returns crashes post computation) (also : Returns True other computation) :
    Returns crashes (fun value => post value ∧ other value) computation := by
  intro choices
  have first := returns choices
  have second := also choices
  cases result : computation choices with
  | ok pair =>
      rw [result] at first second
      exact ⟨first, second⟩
  | error reason =>
      rw [result] at first
      exact first

theorem Returns.map_iff {computation : Draws α} {change : α → β} :
    Returns crashes after (change <$> computation) ↔
      Returns crashes (fun value => after (change value)) computation := by
  refine forall_congr' fun choices => ?_
  change (match Draws.bind computation (fun value => Pure.pure (change value)) choices with
    | .ok (value, _) => after value
    | .error reason => reason = .crashed → crashes) ↔ _
  unfold Draws.bind
  cases computation choices with
  | ok pair => exact Iff.rfl
  | error reason => exact Iff.rfl

theorem Returns.fetch {value : α} {found : Option α} (isSome : found = some value)
    (holds : post value) : Returns crashes post (fetch found) := by
  subst isSome
  exact Returns.pure holds

theorem Returns.fetch_eq {value : α} {found : Option α} (isSome : found = some value) :
    Returns crashes (· = value) (Draws.fetch found) := Returns.fetch isSome rfl

theorem Returns.fetch_lt {values : List α} {k : Nat} (inside : k < values.length) :
    Returns crashes (fun _ => True) (Draws.fetch values[k]?) :=
  Returns.fetch (List.getElem?_eq_getElem inside) trivial

/-- A read that is known to succeed only where crashes are not allowed. -/
theorem Returns.fetch_or {found : Option α} (holds : ∀ value, found = some value → post value)
    (orCrash : found = none → crashes) : Returns crashes post (Draws.fetch found) := by
  cases found with
  | none => exact fun _ _ => orCrash rfl
  | some value => exact Returns.pure (holds value rfl)

theorem Returns.fetched (found : Option α) :
    Returns True (fun value => found = some value) (Draws.fetch found) :=
  Returns.fetch_or (fun _ isSome => isSome) fun _ => trivial

theorem Returns.any (computation : Draws α) : Returns True (fun _ => True) computation := by
  intro choices
  cases computation choices with
  | ok => trivial
  | error => exact fun _ => trivial

theorem Returns.exited : Returns crashes post (stop .exited : Draws α) :=
  fun _ crashed => nomatch crashed

theorem Returns.below {limit : Nat} (positive : 0 < limit) :
    Returns crashes (· < limit) (below limit) := by
  intro choices
  cases choices with
  | nil => exact fun crashed => nomatch crashed
  | cons choice choices =>
      change (if limit ≤ 1 then 0 else choice % limit) < limit
      split
      · exact positive
      · exact Nat.mod_lt _ positive

theorem Returns.below_le (limit : Nat) : Returns crashes (· ≤ limit - 1) (Draws.below limit) := by
  intro choices
  cases choices with
  | nil => exact fun crashed => nomatch crashed
  | cons choice choices =>
      change (if limit ≤ 1 then 0 else choice % limit) ≤ limit - 1
      split
      · exact Nat.zero_le _
      · next large =>
        exact Nat.le_sub_one_of_lt (Nat.mod_lt _ (by omega))

theorem Returns.below_any (limit : Nat) : Returns crashes (fun _ => True) (Draws.below limit) := by
  intro choices
  cases choices with
  | nil => exact fun crashed => nomatch crashed
  | cons => trivial

theorem Returns.belowExcept {limit avoid : Nat} (positive : 0 < limit) :
    Returns crashes (fun drawn => drawn < limit ∧ drawn ≠ avoid) (belowExcept limit avoid) := by
  intro choices
  induction choices with
  | nil => exact fun crashed => nomatch crashed
  | cons choice choices ih =>
      have inside : (if limit ≤ 1 then 0 else choice % limit) < limit := by
        split
        · exact positive
        · exact Nat.mod_lt _ positive
      unfold Draws.belowExcept
      by_cases same : (if limit ≤ 1 then 0 else choice % limit) = avoid
      · simp only [if_pos same]
        exact ih
      · simp only [if_neg same]
        exact ⟨inside, same⟩

theorem Returns.belowUntil (limit : Nat) (accept : Nat → Bool) :
    Returns crashes (fun _ => True) (belowUntil limit accept) := by
  intro choices
  induction choices with
  | nil => exact fun crashed => nomatch crashed
  | cons choice choices ih =>
      unfold Draws.belowUntil
      by_cases accepted : accept (if limit ≤ 1 then 0 else choice % limit) = true
      · simp only [if_pos accepted]
      · simp only [if_neg accepted]
        exact ih

theorem Returns.belowUntil_accepted (limit : Nat) (accept : Nat → Bool) :
    Returns crashes (fun drawn => drawn ≤ limit - 1 ∧ accept drawn = true)
      (Draws.belowUntil limit accept) := by
  intro choices
  induction choices with
  | nil => exact fun crashed => nomatch crashed
  | cons choice choices ih =>
      have inside : (if limit ≤ 1 then 0 else choice % limit) ≤ limit - 1 := by
        split
        · exact Nat.zero_le _
        · exact Nat.le_sub_one_of_lt (Nat.mod_lt _ (by omega))
      unfold Draws.belowUntil
      by_cases accepted : accept (if limit ≤ 1 then 0 else choice % limit) = true
      · simp only [if_pos accepted]
        exact ⟨inside, accepted⟩
      · simp only [if_neg accepted]
        exact ih

theorem Returns.word : Returns crashes (fun _ => True) word := by
  intro choices
  cases choices with
  | nil => exact fun crashed => nomatch crashed
  | cons => trivial

theorem Returns.ite {condition : Prop} [Decidable condition] {first second : Draws α}
    (holds : condition → Returns crashes post first)
    (fails : ¬ condition → Returns crashes post second) :
    Returns crashes post (if condition then first else second) := by
  split
  · next yes => exact holds yes
  · next no => exact fails no

/-- What holds of everything a computation returns holds of what it returned. -/
theorem Returns.of_ok {computation : Draws α} (returns : Returns crashes post computation)
    {choices rest : List Nat} {value : α} (returned : computation choices = .ok (value, rest)) :
    post value := by
  have holds := returns choices
  rw [returned] at holds
  exact holds

theorem Returns.of_crashed {computation : Draws α} (returns : Returns crashes post computation)
    {choices : List Nat} (crashed : computation choices = .error .crashed) : crashes := by
  have holds := returns choices
  rw [crashed] at holds
  exact holds rfl

/-! ## Given choices -/

theorem Returns.on {computation : Draws α} (returns : Returns crashes post computation)
    (choices : List Nat) : ReturnsOn choices crashes post computation := returns choices

theorem bind_ok {first : Draws α} {next : α → Draws β} {choices rest : List Nat} {value : α}
    (returned : first choices = .ok (value, rest)) :
    (first >>= next) choices = next value rest := by
  change Draws.bind first next choices = _
  rw [Draws.bind, returned]

theorem ReturnsOn.ite {choices : List Nat} {condition : Prop} [Decidable condition]
    {first second : Draws α} (holds : condition → ReturnsOn choices crashes post first)
    (fails : ¬ condition → ReturnsOn choices crashes post second) :
    ReturnsOn choices crashes post (if condition then first else second) := by
  split
  · next yes => exact holds yes
  · next no => exact fails no

/-- What follows need agree only on what can be returned. -/
theorem Returns.bind_congr {first : Draws α} {next other : α → Draws β}
    (returns : Returns True post first) (same : ∀ value, post value → next value = other value) :
    (first >>= next) = (first >>= other) := by
  funext choices
  change Draws.bind first next choices = Draws.bind first other choices
  unfold Draws.bind
  cases result : first choices with
  | ok pair => exact congrFun (same pair.1 (returns.of_ok result)) pair.2
  | error reason => rfl

theorem bind_error {first : Draws α} {choices : List Nat} {reason : Stop}
    (stopped : first choices = .error reason) (next : α → Draws β) :
    (first >>= next) choices = .error reason := by
  change Draws.bind first next choices = _
  rw [Draws.bind, stopped]

theorem bind_eq_ok {first : Draws α} {next : α → Draws β} {choices : List Nat}
    {result : β × List Nat} :
    (first >>= next) choices = .ok result ↔
      ∃ value rest, first choices = .ok (value, rest) ∧ next value rest = .ok result := by
  constructor
  · intro returned
    cases started : first choices with
    | ok pair => exact ⟨pair.1, pair.2, rfl, (bind_ok started).symm.trans returned⟩
    | error reason =>
        rw [bind_error started] at returned
        cases returned
  · rintro ⟨value, rest, started, returned⟩
    exact (bind_ok started).trans returned

/-! ## More choices -/

/-- What is returned for some choices is returned when more of them follow. -/
def Steady (computation : Draws α) : Prop := ∀ choices value rest,
  computation choices = .ok (value, rest) →
    ∀ more, computation (choices ++ more) = .ok (value, rest ++ more)

namespace Steady

theorem pure (value : α) : Steady (pure value : Draws α) := by
  intro choices returned rest done more
  cases done
  rfl

theorem bind {first : Draws α} {next : α → Draws β} (start : Steady first)
    (later : ∀ value, Steady (next value)) : Steady (first >>= next) := by
  intro choices value rest returned more
  obtain ⟨middle, reading, started, finished⟩ := bind_eq_ok.mp returned
  exact bind_eq_ok.mpr ⟨middle, reading ++ more, start choices middle reading started more,
    later middle reading value rest finished more⟩

theorem fetch (found : Option α) : Steady (Draws.fetch found) := by
  cases found with
  | none =>
      intro choices value rest returned
      cases returned
  | some value => exact pure value

theorem below (limit : Nat) : Steady (Draws.below limit) := by
  intro choices value rest returned more
  cases choices with
  | nil => cases returned
  | cons choice choices =>
      cases returned
      rfl

theorem belowUntil (limit : Nat) (accept : Nat → Bool) :
    Steady (Draws.belowUntil limit accept) := by
  intro choices value rest returned more
  induction choices with
  | nil => cases returned
  | cons choice choices ih =>
      rw [List.cons_append]
      unfold Draws.belowUntil at returned ⊢
      by_cases accepted : accept (if limit ≤ 1 then 0 else choice % limit) = true
      · simp only [if_pos accepted] at returned ⊢
        cases returned
        rfl
      · simp only [if_neg accepted] at returned ⊢
        exact ih returned

theorem ite {condition : Prop} [Decidable condition] {first second : Draws α}
    (holds : Steady first) (fails : Steady second) :
    Steady (if condition then first else second) := by
  split
  · exact holds
  · exact fails

end Steady

/-! ## Rejection -/

/-- A loop that draws numbers below a limit until one is accepted. -/
structure Rejection where
  limit : Nat
  accept : Nat → Bool

namespace Rejection

def run (loop : Rejection) : Draws Nat := belowUntil loop.limit loop.accept

/-- Some number that can be drawn is accepted. -/
def Offers (loop : Rejection) : Prop := ∃ drawn ≤ loop.limit - 1, loop.accept drawn = true

variable {loop : Rejection}

/-- Where none is accepted the loop never ends. -/
theorem run_of_not_offers (rejects : ¬ loop.Offers) (choices : List Nat) :
    loop.run choices = .error .outOfChoices := by
  rw [run]
  induction choices with
  | nil => rfl
  | cons choice choices ih =>
      have inside : (if loop.limit ≤ 1 then 0 else choice % loop.limit) ≤ loop.limit - 1 := by
        split
        · exact Nat.zero_le _
        · exact Nat.le_sub_one_of_lt (Nat.mod_lt _ (by omega))
      rw [Draws.belowUntil]
      exact (if_neg fun accepted => rejects ⟨_, inside, accepted⟩).trans ih

end Rejection

end Draws

end SbFuzz.Systems
