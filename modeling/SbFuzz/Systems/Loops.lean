import Mathlib.Data.Nat.Count

/-! Loops over `0, …, n - 1` as folds, their invariants, and how the number of
indices with a property changes when the property changes at one of them. -/

set_option autoImplicit false

namespace SbFuzz.Systems

universe u

theorem foldl_range_induction {State : Type u} (motive : Nat → State → Prop)
    {body : State → Nat → State} {init : State} {n : Nat} (start : motive 0 init)
    (round : ∀ i < n, ∀ state, motive i state → motive (i + 1) (body state i)) :
    motive n ((List.range n).foldl body init) := by
  induction n with
  | zero => exact start
  | succ n ih =>
      rw [List.range_succ, List.foldl_append]
      exact round n (Nat.lt_succ_self n) _ (ih fun i below => round i (by omega))

/-- An invariant that does not mention the index. -/
theorem foldl_range_invariant {State : Type u} (Inv : State → Prop)
    {body : State → Nat → State} {init : State} {n : Nat} (start : Inv init)
    (round : ∀ i < n, ∀ state, Inv state → Inv (body state i)) :
    Inv ((List.range n).foldl body init) :=
  foldl_range_induction (fun _ => Inv) start round

section

variable {p q : Nat → Prop} [DecidablePred p] [DecidablePred q]

theorem count_congr {n : Nat} (same : ∀ i < n, p i ↔ q i) : Nat.count p n = Nat.count q n := by
  induction n with
  | zero => simp
  | succ n ih =>
      rw [Nat.count_succ, Nat.count_succ, ih fun i below => same i (by omega)]
      simp only [same n (Nat.lt_succ_self n)]

/-- The property changes at one index only. -/
theorem count_add_indicator {k n : Nat} (inRange : k < n)
    (same : ∀ i, i ≠ k → (p i ↔ q i)) :
    Nat.count p n + (if q k then 1 else 0) = Nat.count q n + (if p k then 1 else 0) := by
  induction n with
  | zero => exact absurd inRange (Nat.not_lt_zero k)
  | succ n ih =>
      rw [Nat.count_succ, Nat.count_succ]
      rcases Nat.lt_or_ge k n with below | last
      · have atLast : (if p n then 1 else 0) = (if q n then 1 else 0) := by
          simp only [same n (by omega)]
        have before := ih below
        omega
      · obtain rfl : k = n := by omega
        have before : Nat.count p k = Nat.count q k :=
          count_congr fun i below => same i (by omega)
        omega

theorem count_eq_add_one {k n : Nat} (inRange : k < n)
    (same : ∀ i, i ≠ k → (p i ↔ q i)) (gone : p k) (now : ¬ q k) :
    Nat.count p n = Nat.count q n + 1 := by
  have changed := count_add_indicator inRange same
  rwa [if_neg now, if_pos gone] at changed

theorem count_add_count_not (p : Nat → Prop) [DecidablePred p] (n : Nat) :
    Nat.count p n + Nat.count (fun i => ¬ p i) n = n := by
  induction n with
  | zero => simp
  | succ n ih =>
      rw [Nat.count_succ, Nat.count_succ]
      by_cases holds : p n
      · simp only [holds, if_true, not_true, if_false]
        omega
      · simp only [holds, if_false, not_false_eq_true, if_true]
        omega

theorem count_pos_iff {n : Nat} : 0 < Nat.count p n ↔ ∃ i < n, p i := by
  rw [Nat.pos_iff_ne_zero]
  exact Nat.count_ne_iff_exists

end

end SbFuzz.Systems
