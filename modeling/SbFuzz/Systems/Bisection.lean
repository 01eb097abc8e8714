import Mathlib.Data.Nat.Basic

/-! Searches: those that halve an interval, however they choose where to look, and
those that go through their candidates in order. -/

set_option autoImplicit false

namespace SbFuzz.Systems

/-- Where what is looked for lies, seen from a place: the place is below it, or it is there. -/
inductive Probe where
  | below
  | hit
  | above
  deriving DecidableEq

/-- Below a place that is below all are below, and above one that is above all are above. -/
structure Probe.Ordered (probe : Nat → Probe) (size : Nat) : Prop where
  below : ∀ i k, k ≤ i → i < size → probe i = .below → probe k = .below
  above : ∀ i k, i ≤ k → k < size → probe i = .above → probe k = .above

/-- A search in the places from `lower` up to `upper`, which is not one of them. -/
inductive Bisects (probe : Nat → Probe) : (lower upper : Nat) → Option Nat → Prop where
  | spent {lower upper} (empty : upper ≤ lower) : Bisects probe lower upper none
  | hit {lower upper} (middle : Nat) (above : lower ≤ middle) (below : middle < upper)
      (found : probe middle = .hit) : Bisects probe lower upper (some middle)
  | up {lower upper result} (middle : Nat) (above : lower ≤ middle) (below : middle < upper)
      (probed : probe middle = .below) (rest : Bisects probe (middle + 1) upper result) :
      Bisects probe lower upper result
  | down {lower upper result} (middle : Nat) (above : lower ≤ middle) (below : middle < upper)
      (probed : probe middle = .above) (rest : Bisects probe lower middle result) :
      Bisects probe lower upper result

namespace Bisects

variable {probe : Nat → Probe} {lower upper size : Nat} {result : Option Nat}

theorem sound {found : Nat} (bisects : Bisects probe lower upper (some found)) :
    lower ≤ found ∧ found < upper ∧ probe found = .hit := by
  generalize isSome : some found = result at bisects
  induction bisects with
  | spent => cases isSome
  | hit middle above below hits =>
      cases isSome
      exact ⟨above, below, hits⟩
  | up middle above below probed rest ih =>
      have inside := ih isSome
      exact ⟨by omega, inside.2⟩
  | down middle above below probed rest ih =>
      have inside := ih isSome
      exact ⟨inside.1, by omega, inside.2.2⟩

/-- Where the places are ordered, nothing that is left out is a hit. -/
theorem complete (bisects : Bisects probe lower upper result) (ordered : Probe.Ordered probe size)
    (fits : upper ≤ size) {k : Nat} (inside : lower ≤ k) (insideUpper : k < upper)
    (hits : probe k = .hit) : result.isSome = true := by
  induction bisects with
  | spent => omega
  | hit => rfl
  | up middle above below probed rest ih =>
      refine ih fits ?_ insideUpper
      by_contra low
      have isBelow := ordered.below middle k (by omega) (by omega) probed
      rw [hits] at isBelow
      cases isBelow
  | down middle above below probed rest ih =>
      refine ih (by omega) inside ?_
      by_contra high
      have isAbove := ordered.above middle k (by omega) (by omega) probed
      rw [hits] at isAbove
      cases isAbove

theorem isSome_iff (bisects : Bisects probe 0 size result) (ordered : Probe.Ordered probe size) :
    result.isSome = true ↔ ∃ k < size, probe k = .hit := by
  constructor
  · intro some
    obtain ⟨found, rfl⟩ := Option.isSome_iff_exists.mp some
    exact ⟨found, bisects.sound.2⟩
  · rintro ⟨k, inside, hits⟩
    exact bisects.complete ordered (Nat.le_refl _) (Nat.zero_le _) inside hits

end Bisects

/-! ## Candidates shown one after another, up to the first that is accepted -/

section
variable {Candidate Seen : Type}

inductive Ending (Candidate Seen : Type) where
  /-- None was accepted; this is what was seen. -/
  | spent (history : List Seen)
  /-- The observer gave up. -/
  | ended
  | accepted (candidate : Candidate)

/-- Who decides by all that was seen, the last one first. -/
structure Observer (Seen : Type) where
  quits : List Seen → Bool
  accepts : List Seen → Bool

def search (observer : Observer Seen) (shown : Candidate → Seen) :
    List Seen → List Candidate → Ending Candidate Seen
  | history, [] => .spent history
  | history, candidate :: rest =>
      if observer.quits (shown candidate :: history) then .ended
      else if observer.accepts (shown candidate :: history) then .accepted candidate
      else search observer shown (shown candidate :: history) rest

variable {observer : Observer Seen} {shown : Candidate → Seen} {history : List Seen}
  {candidate : Candidate} {rest : List Candidate}

end

end SbFuzz.Systems
