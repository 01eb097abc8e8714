import Mathlib.Algebra.BigOperators.Group.Finset.Piecewise
import Mathlib.Algebra.Order.BigOperators.Group.List
import Mathlib.Data.Rat.Cast.Order
import Mathlib.Tactic.Linarith
import Mathlib.Tactic.FieldSimp

/-! The alias table, from which the next queue entry is drawn: its construction
from normalised weights, and how often it selects each entry. -/

set_option autoImplicit false

namespace SbFuzz.Fuzzer

/-! ## Construction -/

/-- The arrays that `create_alias_table` works on once the weights are in `P`. The
stacks `Small` and `Large` are lists with their top in front. -/
structure AliasArrays where
  P : Nat → ℚ
  small : List Nat
  large : List Nat
  aliasProbability : Nat → ℚ
  aliasTable : Nat → Nat

namespace AliasArrays

def push (arrays : AliasArrays) (j : Nat) : AliasArrays :=
  if arrays.P j < 1 then { arrays with small := j :: arrays.small }
  else { arrays with large := j :: arrays.large }

/-- The loop that sorts the slots, from the last one down. -/
def split (n : Nat) (P : Nat → ℚ) : AliasArrays :=
  (List.range n).reverse.foldl push ⟨P, [], [], fun _ => 0, fun _ => 0⟩

/-- The rest of the small slot goes to the large one, which is on neither stack. -/
def give (arrays : AliasArrays) (small large : Nat) (restSmall restLarge : List Nat) :
    AliasArrays where
  P := Function.update arrays.P large (arrays.P large - (1 - arrays.P small))
  small := restSmall
  large := restLarge
  aliasProbability := Function.update arrays.aliasProbability small (arrays.P small)
  aliasTable := Function.update arrays.aliasTable small large

def pending (arrays : AliasArrays) : List Nat := arrays.small ++ arrays.large

theorem push_pending (arrays : AliasArrays) (j : Nat) :
    (arrays.push j).pending.Perm (j :: arrays.pending) := by
  unfold push pending
  split
  · exact List.Perm.refl _
  · exact List.perm_middle

def pairs (arrays : AliasArrays) : AliasArrays :=
  match _small : arrays.small, _large : arrays.large with
  | small :: restSmall, large :: restLarge =>
      pairs ((arrays.give small large restSmall restLarge).push large)
  | _, _ => arrays
termination_by arrays.pending.length
decreasing_by
  rw [(push_pending _ _).length_eq]
  simp only [give, pending, _small, _large, List.length_append, List.length_cons]
  omega

/-- What is left on the stacks keeps its own slot. -/
def settle (arrays : AliasArrays) : AliasArrays :=
  { arrays with
    small := []
    large := []
    aliasProbability := fun s => if s ∈ arrays.pending then 1 else arrays.aliasProbability s }

def build (n : Nat) (P : Nat → ℚ) : AliasArrays := (split n P).pairs.settle

end AliasArrays

/-! ## Selection -/

/-- How likely a number drawn uniformly from `[0, 1)` is below `x`. -/
def chanceBelow (x : ℚ) : ℚ := max 0 (min x 1)

/-- What the slot `s` contributes to the selection of `q`. -/
def AliasArrays.share (arrays : AliasArrays) (s q : Nat) : ℚ :=
  (if s = q then arrays.aliasProbability s else 0) +
    (if arrays.aliasTable s = q then 1 - arrays.aliasProbability s else 0)

/-- `select_next_queue_entry` draws a slot and keeps it or takes its alias. -/
def AliasArrays.selection (arrays : AliasArrays) (n q : Nat) : ℚ :=
  (∑ s ∈ Finset.range n,
    ((if s = q then chanceBelow (arrays.aliasProbability s) else 0) +
      (if arrays.aliasTable s = q then 1 - chanceBelow (arrays.aliasProbability s) else 0))) / n

/-! ## The invariant of the construction -/

namespace AliasArrays

variable {n : Nat} {P : Nat → ℚ} {arrays : AliasArrays} {pending : List Nat}

/-- What the slots that are finished contribute to the selection of `q`. -/
def mass (arrays : AliasArrays) (pending : List Nat) (n q : Nat) : ℚ :=
  ∑ s ∈ Finset.range n, if s ∈ pending then 0 else arrays.share s q

/-- Every entry has got its weight but for what is still pending, and the pending
weights are 1 on average. -/
structure Balanced (n : Nat) (P : Nat → ℚ) (arrays : AliasArrays) (pending : List Nat) :
    Prop where
  nodup : pending.Nodup
  inRange : ∀ s ∈ pending, s < n
  nonneg : ∀ s ∈ pending, 0 ≤ arrays.P s
  average : (pending.map arrays.P).sum = pending.length
  settled : ∀ s < n, s ∉ pending →
    0 ≤ arrays.aliasProbability s ∧ arrays.aliasProbability s ≤ 1
  mass : ∀ q < n, arrays.mass pending n q + (if q ∈ pending then arrays.P q else 0) = P q

theorem Balanced.perm (balanced : Balanced n P arrays pending) {other : List Nat}
    (perm : other.Perm pending) : Balanced n P arrays other := by
  have members : ∀ s, s ∈ other ↔ s ∈ pending := fun s => perm.mem_iff
  refine ⟨perm.nodup_iff.mpr balanced.nodup, ?_, ?_, ?_, ?_, ?_⟩
  · exact fun s member => balanced.inRange s ((members s).mp member)
  · exact fun s member => balanced.nonneg s ((members s).mp member)
  · rw [(perm.map arrays.P).sum_eq, perm.length_eq]
    exact balanced.average
  · exact fun s below absent => balanced.settled s below fun member =>
      absent ((members s).mpr member)
  · intro q below
    simp only [AliasArrays.mass, members]
    exact balanced.mass q below

/-- One slot is finished: a sum that changes at one index only. -/
theorem mass_finish (arrays finished : AliasArrays) {small : Nat} (below : small < n)
    (fresh : small ∉ pending)
    (same : ∀ s, s ≠ small → finished.aliasProbability s = arrays.aliasProbability s ∧
      finished.aliasTable s = arrays.aliasTable s) (q : Nat) :
    finished.mass pending n q = arrays.mass (small :: pending) n q + finished.share small q := by
  have term : ∀ s, (if s ∈ pending then 0 else finished.share s q) =
      (if s ∈ small :: pending then 0 else arrays.share s q) +
        if s = small then finished.share small q else 0 := by
    intro s
    by_cases here : s = small
    · subst here
      simp [fresh]
    · obtain ⟨probability, table⟩ := same s here
      simp only [List.mem_cons, here, false_or, if_false, add_zero, share, probability, table]
  unfold mass
  rw [Finset.sum_congr rfl fun s _ => term s, Finset.sum_add_distrib, Finset.sum_ite_eq',
    if_pos (Finset.mem_range.mpr below)]

theorem Balanced.give {small large : Nat} {restSmall restLarge : List Nat}
    (balanced : Balanced n P arrays (small :: large :: pending)) (less : arrays.P small < 1)
    (more : 1 ≤ arrays.P large) :
    Balanced n P (arrays.give small large restSmall restLarge) (large :: pending) := by
  obtain ⟨freshSmall, nodup⟩ := List.nodup_cons.mp balanced.nodup
  obtain ⟨freshLarge, _⟩ := List.nodup_cons.mp nodup
  have apart : small ≠ large := fun same => freshSmall (same ▸ List.mem_cons_self)
  have below := balanced.inRange small List.mem_cons_self
  have nonneg := balanced.nonneg small List.mem_cons_self
  have others : ∀ s ∈ pending, s ≠ large := fun s member same => freshLarge (same ▸ member)
  refine ⟨nodup, fun s member => balanced.inRange s (List.mem_cons_of_mem _ member), ?_, ?_, ?_, ?_⟩
  · intro s member
    rcases List.mem_cons.mp member with rfl | rest
    · simp only [AliasArrays.give, Function.update_self]
      linarith
    · simp only [AliasArrays.give, Function.update_of_ne (others s rest)]
      exact balanced.nonneg s (List.mem_cons_of_mem _ member)
  · have average := balanced.average
    have unchanged : pending.map (Function.update arrays.P large
        (arrays.P large - (1 - arrays.P small))) = pending.map arrays.P :=
      List.map_congr_left fun s member => Function.update_of_ne (others s member) _ _
    simp only [List.map_cons, List.sum_cons, List.length_cons, Nat.cast_add, Nat.cast_one,
      AliasArrays.give, Function.update_self, unchanged] at average ⊢
    linarith
  · intro s inRange absent
    by_cases here : s = small
    · subst here
      simp only [AliasArrays.give, Function.update_self]
      exact ⟨nonneg, less.le⟩
    · simp only [AliasArrays.give, Function.update_of_ne here]
      exact balanced.settled s inRange (by simp [here, absent])
  · intro q inRange
    have finished := balanced.mass q inRange
    rw [mass_finish arrays (arrays.give small large restSmall restLarge) below freshSmall
      fun s other => ⟨Function.update_of_ne other _ _, Function.update_of_ne other _ _⟩]
    simp only [share, AliasArrays.give, Function.update_self]
    rcases eq_or_ne q small with rfl | notSmall
    · rw [if_pos List.mem_cons_self] at finished
      rw [if_pos rfl, if_neg apart.symm, if_neg freshSmall]
      linarith
    · rw [if_neg notSmall.symm]
      rcases eq_or_ne q large with rfl | notLarge
      · rw [if_pos (List.mem_cons_of_mem _ List.mem_cons_self)] at finished
        rw [if_pos rfl, if_pos List.mem_cons_self, Function.update_self]
        linarith
      · rw [if_neg notLarge.symm, Function.update_of_ne notLarge]
        simp only [List.mem_cons, notSmall, notLarge, false_or] at finished ⊢
        linarith

/-- What the stacks hold is on the right one. -/
structure Stacked (arrays : AliasArrays) : Prop where
  small : ∀ s ∈ arrays.small, arrays.P s < 1
  large : ∀ s ∈ arrays.large, 1 ≤ arrays.P s

theorem Stacked.push (stacked : Stacked arrays) (j : Nat) : Stacked (arrays.push j) := by
  unfold AliasArrays.push
  split
  · next less =>
    refine ⟨fun s member => ?_, stacked.large⟩
    rcases List.mem_cons.mp member with rfl | rest
    · exact less
    · exact stacked.small s rest
  · next more =>
    refine ⟨stacked.small, fun s member => ?_⟩
    rcases List.mem_cons.mp member with rfl | rest
    · exact not_lt.mp more
    · exact stacked.large s rest

theorem Balanced.push (balanced : Balanced n P arrays pending) (j : Nat) :
    Balanced n P (arrays.push j) pending := by
  unfold AliasArrays.push
  split
  · exact ⟨balanced.nodup, balanced.inRange, balanced.nonneg, balanced.average, balanced.settled,
      balanced.mass⟩
  · exact ⟨balanced.nodup, balanced.inRange, balanced.nonneg, balanced.average, balanced.settled,
      balanced.mass⟩

theorem Stacked.give {small large : Nat} {restSmall restLarge : List Nat}
    (stacked : Stacked arrays) (subSmall : restSmall ⊆ arrays.small)
    (subLarge : restLarge ⊆ arrays.large) (fresh : large ∉ restSmall ++ restLarge) :
    Stacked (arrays.give small large restSmall restLarge) := by
  refine ⟨fun s member => ?_, fun s member => ?_⟩
  · have other : s ≠ large := fun same => fresh (List.mem_append_left _ (same ▸ member))
    simp only [AliasArrays.give, Function.update_of_ne other]
    exact stacked.small s (subSmall member)
  · have other : s ≠ large := fun same => fresh (List.mem_append_right _ (same ▸ member))
    simp only [AliasArrays.give, Function.update_of_ne other]
    exact stacked.large s (subLarge member)

theorem pairs_spec (balanced : Balanced n P arrays arrays.pending) (stacked : Stacked arrays) :
    Balanced n P arrays.pairs arrays.pairs.pending ∧ Stacked arrays.pairs ∧
      (arrays.pairs.small = [] ∨ arrays.pairs.large = []) := by
  fun_induction pairs arrays with
  | case1 arrays small restSmall large restLarge smallEq largeEq ih =>
      have shape : (small :: large :: (restSmall ++ restLarge)).Perm arrays.pending := by
        rw [AliasArrays.pending, smallEq, largeEq, List.cons_append]
        exact (List.perm_middle.symm).cons small
      have popped := balanced.perm shape
      have fresh := (List.nodup_cons.mp (List.nodup_cons.mp popped.nodup).2).1
      have given : Balanced n P (arrays.give small large restSmall restLarge) _ :=
        popped.give (stacked.small small (by simp [smallEq])) (stacked.large large (by simp [largeEq]))
      apply ih
      · exact (given.push large).perm (push_pending _ _)
      · exact (stacked.give (by simp [smallEq]) (by simp [largeEq]) fresh).push large
  | case2 arrays stopped =>
      refine ⟨balanced, stacked, ?_⟩
      cases smallEq : arrays.small with
      | nil => exact .inl rfl
      | cons small restSmall =>
          cases largeEq : arrays.large with
          | nil => exact .inr rfl
          | cons large restLarge => exact absurd largeEq (stopped _ _ _ _ smallEq)

theorem sum_ones (slots : List Nat) : (slots.map fun _ => (1 : ℚ)).sum = slots.length := by
  simp

/-- Weights of at least 1 that are 1 on average are all 1. -/
theorem eq_one_of_average {slots : List Nat} (atLeast : ∀ s ∈ slots, 1 ≤ P s)
    (average : (slots.map P).sum = slots.length) : ∀ s ∈ slots, P s = 1 := by
  intro s member
  by_contra different
  have more : (slots.map fun _ => (1 : ℚ)).sum < (slots.map P).sum :=
    List.sum_lt_sum _ _ atLeast ⟨s, member, lt_of_le_of_ne (atLeast s member) (Ne.symm different)⟩
  rw [sum_ones, average] at more
  exact lt_irrefl _ more

theorem nil_of_average {slots : List Nat} (below : ∀ s ∈ slots, P s < 1)
    (average : (slots.map P).sum = slots.length) : slots = [] := by
  by_contra some
  have less : (slots.map P).sum < (slots.map fun _ => (1 : ℚ)).sum :=
    List.sum_lt_sum_of_ne_nil some _ _ below
  rw [sum_ones, average] at less
  exact lt_irrefl _ less

/-- When the loop ends, all weights that are left are 1. -/
theorem pairs_left (balanced : Balanced n P arrays arrays.pending) (stacked : Stacked arrays) :
    ∀ s ∈ arrays.pairs.pending, arrays.pairs.P s = 1 := by
  obtain ⟨balanced, stacked, stopped⟩ := pairs_spec balanced stacked
  have average := balanced.average
  rcases stopped with noSmall | noLarge
  · rw [AliasArrays.pending, noSmall, List.nil_append] at average ⊢
    exact eq_one_of_average stacked.large average
  · rw [AliasArrays.pending, noLarge, List.append_nil] at average ⊢
    rw [nil_of_average stacked.small average]
    exact fun s never => by cases never

/-- The stacks fill up; nothing else changes. -/
theorem foldl_push (slots : List Nat) (balanced : Balanced n P arrays pending)
    (stacked : Stacked arrays) :
    (slots.foldl AliasArrays.push arrays).pending.Perm (slots ++ arrays.pending) ∧
      Balanced n P (slots.foldl AliasArrays.push arrays) pending ∧
      Stacked (slots.foldl AliasArrays.push arrays) := by
  induction slots generalizing arrays with
  | nil => exact ⟨List.Perm.refl _, balanced, stacked⟩
  | cons j slots ih =>
      obtain ⟨perm, balanced, stacked⟩ := ih (balanced.push j) (stacked.push j)
      refine ⟨perm.trans ?_, balanced, stacked⟩
      exact ((push_pending arrays j).append_left slots).trans List.perm_middle

theorem split_spec (nonneg : ∀ s < n, 0 ≤ P s) (normalised : ∑ s ∈ Finset.range n, P s = n) :
    Balanced n P (split n P) (split n P).pending ∧ Stacked (split n P) := by
  have start : Balanced n P ⟨P, [], [], fun _ => 0, fun _ => 0⟩ (List.range n) := by
    refine ⟨List.nodup_range, fun s member => List.mem_range.mp member,
      fun s member => nonneg s (List.mem_range.mp member), ?_, ?_, fun q below => ?_⟩
    · rw [List.length_range, ← normalised]
      rfl
    · exact fun s below absent => absurd (List.mem_range.mpr below) absent
    · have none : ∀ s ∈ Finset.range n, (if s ∈ List.range n then 0 else
          AliasArrays.share ⟨P, [], [], fun _ => 0, fun _ => 0⟩ s q) = 0 := by
        intro s member
        rw [if_pos (List.mem_range.mpr (Finset.mem_range.mp member))]
      rw [AliasArrays.mass, Finset.sum_eq_zero none, if_pos (List.mem_range.mpr below), zero_add]
  obtain ⟨perm, balanced, stacked⟩ :=
    foldl_push (List.range n).reverse start ⟨by simp, by simp⟩
  refine ⟨balanced.perm (perm.trans ?_), stacked⟩
  simp [AliasArrays.pending]

theorem chanceBelow_of_unit {x : ℚ} (nonneg : 0 ≤ x) (most : x ≤ 1) : chanceBelow x = x := by
  rw [chanceBelow, min_eq_left most, max_eq_right nonneg]

/-- Each entry is drawn as often as its weight says. -/
theorem build_selection (nonneg : ∀ s < n, 0 ≤ P s)
    (normalised : ∑ s ∈ Finset.range n, P s = n) {q : Nat} (inside : q < n) :
    (build n P).selection n q = P q / n := by
  obtain ⟨balanced, stacked⟩ := split_spec nonneg normalised
  have left := pairs_left balanced stacked
  have final := (pairs_spec balanced stacked).1
  set arrays := (split n P).pairs with same
  have term : ∀ s ∈ Finset.range n,
      ((if s = q then chanceBelow ((build n P).aliasProbability s) else 0) +
        (if (build n P).aliasTable s = q then
          1 - chanceBelow ((build n P).aliasProbability s) else 0)) =
      (if s ∈ arrays.pending then 0 else arrays.share s q) +
        if s = q then (if q ∈ arrays.pending then arrays.P q else 0) else 0 := by
    intro s member
    simp only [build, settle, ← same]
    by_cases waiting : s ∈ arrays.pending
    · rw [if_pos waiting, if_pos waiting, chanceBelow_of_unit zero_le_one le_rfl, sub_self, ite_self,
        add_zero, zero_add]
      rcases eq_or_ne s q with rfl | other
      · rw [if_pos rfl, if_pos rfl, if_pos waiting, left s waiting]
      · rw [if_neg other, if_neg other]
    · obtain ⟨low, high⟩ := final.settled s (Finset.mem_range.mp member) waiting
      rw [if_neg waiting, if_neg waiting, chanceBelow_of_unit low high]
      have nothing : (if s = q then (if q ∈ arrays.pending then arrays.P q else 0) else 0) = 0 := by
        rcases eq_or_ne s q with rfl | other
        · rw [if_pos rfl, if_neg waiting]
        · rw [if_neg other]
      rw [nothing, add_zero, share]
  rw [selection, Finset.sum_congr rfl term, Finset.sum_add_distrib, Finset.sum_ite_eq',
    if_pos (Finset.mem_range.mpr inside), ← final.mass q inside]
  rfl

end AliasArrays

end SbFuzz.Fuzzer
