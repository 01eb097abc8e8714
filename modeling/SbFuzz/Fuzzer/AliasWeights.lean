import SbFuzz.Fuzzer.AliasTable
import SbFuzz.Fuzzer.Score
import Mathlib.Algebra.Order.BigOperators.Group.Finset
import Mathlib.Algebra.BigOperators.Field
import Mathlib.Data.Nat.Log
import Mathlib.Tactic.NormNum
import Mathlib.Tactic.Positivity

/-! The weights of the queue entries and their normalisation for the alias
table. -/

set_option autoImplicit false

namespace SbFuzz.Fuzzer

/-! ## The weight of an entry -/

/-- A quotient of numbers that are not negative. Divided by zero it is infinite or
not a number, and not below anything. -/
def ratio (x avg : ℚ) : Option ℚ := if avg = 0 then none else some (x / avg)

def timeFactor : Option ℚ → ℚ
  | none => 1
  | some t =>
      if t < 0.1 then 1
      else if t ≤ 0.25 then 0.95
      else if t ≤ 0.5 then 1
      else if t ≤ 0.75 then 1.05
      else if t ≤ 1 then 1.1
      else if t < 1.25 then 0.2
      else if t ≤ 1.5 then 1
      else if t ≤ 2 then 1.1
      else if t ≤ 2.5 then 1
      else if t ≤ 5 then 1.15
      else if t ≤ 20 then 1.1
      else 1

def lengthFactor : Option ℚ → ℚ
  | none => 1.15
  | some l =>
      if l < 0.1 then 0.5
      else if l ≤ 0.5 then 1
      else if l ≤ 1.25 then 1.05
      else if l ≤ 1.75 then 1
      else if l ≤ 2 then 0.95
      else if l ≤ 5 then 1
      else if l ≤ 10 then 1.05
      else 1.15

def bitmapFactor : Option ℚ → ℚ
  | none => 0.75
  | some bms =>
      if bms < 0.1 then 0.01
      else if bms ≤ 0.25 then 0.55
      else if bms ≤ 0.5 then 1
      else if bms ≤ 0.75 then 1.2
      else if bms ≤ 1.25 then 1.3
      else if bms ≤ 1.75 then 1.25
      else if bms ≤ 2 then 1
      else if bms ≤ 2.5 then 1.3
      else 0.75

section

variable (libm : Libm) (afl : Scheduler)

def hitsFactor (q : ScoredEntry) : ℚ :=
  if Schedule.fast.number ≤ afl.schedule.number ∧ afl.schedule.number ≤ Schedule.rare.number ∧
      afl.hits q ≠ 0 then
    1 / (libm.log10 (afl.hits q).toNat + 1)
  else 1

/-- The average over the entries that are enabled. -/
def Scheduler.average (value : ScoredEntry → ℚ) : ℚ :=
  (∑ i ∈ afl.enabled, value (afl.queueBuf i)) / afl.enabled.card

/-- The average is of logarithms; that of an empty bitmap is infinite, which makes
every quotient zero. -/
def bitmapRatio (q : ScoredEntry) : Option ℚ :=
  if ∃ i ∈ afl.enabled, (afl.queueBuf i).bitmapSize = 0 then some 0
  else ratio q.bitmapSize.toNat (afl.average fun other => libm.log other.bitmapSize.toNat)

def computeWeight (q : ScoredEntry) : ℚ :=
  hitsFactor libm afl q *
    timeFactor (ratio q.execUs.toNat (afl.average fun other => other.execUs.toNat)) *
    lengthFactor (ratio q.len.toNat (afl.average fun other => other.len.toNat)) *
    bitmapFactor (bitmapRatio libm afl q) *
    (if q.wasFuzzed then 1 else 2.5) *
    (if q.fsRedundant then 0.75 else 1)

/-! ## The table -/

/-- The entry once the loop over the queue has come to it. The score of an entry
does not depend on what the loop writes to others. -/
def weighEntry (q : ScoredEntry) : Option ScoredEntry :=
  if q.disabled then some q
  else (calculateScore libm afl q).map fun (perfScore, after) =>
    if afl.schedule.number < Schedule.rare.number then
      { after with weight := computeWeight libm afl q, perfScore := perfScore }
    else { after with perfScore := perfScore }

/-- The loop over the queue; `none` when a score divides by zero. -/
def weighQueue : Option Scheduler :=
  if ∀ i ∈ Finset.range afl.queuedItems, (weighEntry libm afl (afl.queueBuf i)).isSome then
    some { afl with queueBuf := fun i =>
      if i < afl.queuedItems then
        (weighEntry libm afl (afl.queueBuf i)).getD (afl.queueBuf i)
      else afl.queueBuf i }
  else none

/-- The entries whose weight the MMOPT schedule doubles. `n - cnt` wraps around
when there are fewer than `cnt` entries. -/
def boosted (i : Nat) : Bool :=
  afl.schedule = .mmopt && afl.queuedDiscovered ≠ 0 &&
    min afl.queuedDiscovered 5 ≤ afl.queuedItems &&
    afl.queuedItems - min afl.queuedDiscovered 5 ≤ i && i < afl.queuedItems &&
    !(afl.queueBuf i).disabled

def boost : Scheduler :=
  { afl with queueBuf := fun i =>
      if boosted afl i then { afl.queueBuf i with weight := (afl.queueBuf i).weight * 2 }
      else afl.queueBuf i }

/-- What a slot is weighed by. -/
def Scheduler.measure (i : Nat) : ℚ :=
  if afl.schedule.number < Schedule.rare.number then (afl.queueBuf i).weight
  else (afl.queueBuf i).perfScore

/-- The measure that counts in the end. -/
def Scheduler.finalWeight (i : Nat) : ℚ :=
  if (afl.queueBuf i).disabled then 0 else afl.measure i

end

structure AliasTable where
  afl : Scheduler
  P : Nat → ℚ
  arrays : AliasArrays

/-- The sum that the loop over the queue takes. -/
def Scheduler.sum (afl : Scheduler) : ℚ := ∑ i ∈ afl.enabled, afl.measure i

/-- Weights are doubled after their sum was taken. -/
def aliasTableOf (weighed : Scheduler) : AliasTable :=
  let final := boost weighed
  let P := fun i => if (final.queueBuf i).disabled then 0 else
    final.measure i * final.queuedItems / weighed.sum
  ⟨final, P, AliasArrays.build final.queuedItems P⟩

def createAliasTable (libm : Libm) (afl : Scheduler) : Option AliasTable :=
  (weighQueue libm afl).map aliasTableOf

/-- The weights in use sum to the number of entries; an entry is drawn as often as
its final weight says, and not at all if it is disabled. -/
structure AliasTable.Normalised (table : AliasTable) : Prop where
  total : ∑ i ∈ Finset.range table.afl.queuedItems, table.P i = table.afl.queuedItems
  drawn : ∀ i < table.afl.queuedItems, table.arrays.selection table.afl.queuedItems i =
    table.afl.finalWeight i / ∑ j ∈ Finset.range table.afl.queuedItems, table.afl.finalWeight j
  disabled : ∀ i < table.afl.queuedItems, (table.afl.queueBuf i).disabled = true →
    table.P i = 0

/-! ## Weights are positive -/

section

variable (libm : Libm) (afl : Scheduler) (q : ScoredEntry)

theorem timeFactor_pos (t : Option ℚ) : 0 < timeFactor t := by
  unfold timeFactor
  split
  · norm_num
  · positivity

theorem lengthFactor_pos (l : Option ℚ) : 0 < lengthFactor l := by
  unfold lengthFactor
  split
  · norm_num
  · positivity

theorem bitmapFactor_pos (bms : Option ℚ) : 0 < bitmapFactor bms := by
  unfold bitmapFactor
  split
  · norm_num
  · positivity

theorem hitsFactor_pos : 0 < hitsFactor libm afl q := by
  unfold hitsFactor
  split
  · next counted =>
    have hit : 1 ≤ (afl.hits q).toNat := Nat.one_le_iff_ne_zero.mpr fun zero =>
      counted.2.2 (UInt32.toNat_inj.mp zero)
    have nonneg := libm.log10_nonneg _ hit
    positivity
  · exact one_pos

theorem computeWeight_pos : 0 < computeWeight libm afl q := by
  have hits := hitsFactor_pos libm afl q
  have time := timeFactor_pos (ratio q.execUs.toNat (afl.average fun other => other.execUs.toNat))
  have length := lengthFactor_pos (ratio q.len.toNat (afl.average fun other => other.len.toNat))
  have bitmap := bitmapFactor_pos (bitmapRatio libm afl q)
  have fuzzed : (0 : ℚ) < if q.wasFuzzed then 1 else 2.5 := by split <;> norm_num
  have redundant : (0 : ℚ) < if q.fsRedundant then 0.75 else 1 := by split <;> norm_num
  exact mul_pos (mul_pos (mul_pos (mul_pos (mul_pos hits time) length) bitmap) fuzzed) redundant

end

/-! ## The queue once it is weighed -/

section

variable {libm : Libm} {afl weighed : Scheduler} {q entry : ScoredEntry}

theorem weighEntry_disabled (found : weighEntry libm afl q = some entry) :
    entry.disabled = q.disabled := by
  unfold weighEntry at found
  split at found
  · cases found
    rfl
  · obtain ⟨⟨perfScore, after⟩, scored, rfl⟩ := Option.map_eq_some_iff.mp found
    have same := calculateScore_disabled libm afl q scored
    dsimp only
    split <;> exact same

theorem weighEntry_enabled (enabled : q.disabled = false)
    (found : weighEntry libm afl q = some entry) : ∃ score after,
      calculateScore libm afl q = some (score, after) ∧ entry.perfScore = score ∧
        (afl.schedule.number < Schedule.rare.number → entry.weight = computeWeight libm afl q) := by
  rw [weighEntry, if_neg (by simp [enabled])] at found
  obtain ⟨⟨perfScore, after⟩, scored, rfl⟩ := Option.map_eq_some_iff.mp found
  refine ⟨perfScore, after, scored, ?_⟩
  dsimp only
  split
  · exact ⟨rfl, fun _ => rfl⟩
  · next late => exact ⟨rfl, fun early => absurd early late⟩

/-- No entry's score is divided by a count that wraps around. -/
def Scheduler.Divides (afl : Scheduler) : Prop :=
  afl.schedule = .lin ∨ afl.schedule = .quad →
    ∀ i ∈ afl.enabled, (afl.queueBuf i).fuzzLevel ≠ 0 → afl.hits (afl.queueBuf i) + 1 ≠ 0

theorem weighQueue_isSome_iff : (weighQueue libm afl).isSome = true ↔ afl.Divides := by
  have entry : ∀ i ∈ Finset.range afl.queuedItems,
      (weighEntry libm afl (afl.queueBuf i)).isSome = true ↔ (i ∈ afl.enabled →
        (calculateScore libm afl (afl.queueBuf i)).isSome = true) := by
    intro i member
    unfold weighEntry
    split
    · next disabled => simp [Scheduler.enabled, disabled]
    · next enabled =>
      have member : i ∈ afl.enabled := Finset.mem_filter.mpr ⟨member, by simpa using enabled⟩
      simp [member]
  have whole : (weighQueue libm afl).isSome = true ↔ ∀ i ∈ Finset.range afl.queuedItems,
      (weighEntry libm afl (afl.queueBuf i)).isSome = true := by
    unfold weighQueue
    split
    · next all => simpa using all
    · next missing => simpa using missing
  rw [whole]
  constructor
  · intro all divided i member
    have scored := (entry i (Finset.mem_filter.mp member).1).mp
      (all i (Finset.mem_filter.mp member).1) member
    exact (calculateScore_isSome_iff libm afl _).mp scored divided
  · intro divides i inRange
    refine (entry i inRange).mpr fun member => ?_
    exact (calculateScore_isSome_iff libm afl _).mpr fun divided => divides divided i member

/-- What weighing does to the queue. -/
structure Weighed (libm : Libm) (afl weighed : Scheduler) : Prop where
  items : weighed.queuedItems = afl.queuedItems
  schedule : weighed.schedule = afl.schedule
  discovered : weighed.queuedDiscovered = afl.queuedDiscovered
  entries : ∀ i < afl.queuedItems,
    weighEntry libm afl (afl.queueBuf i) = some (weighed.queueBuf i)

theorem weighQueue_spec (found : weighQueue libm afl = some weighed) :
    Weighed libm afl weighed := by
  unfold weighQueue at found
  split at found
  · next all =>
    cases found
    refine ⟨rfl, rfl, rfl, fun i below => ?_⟩
    obtain ⟨entry, same⟩ := Option.isSome_iff_exists.mp (all i (Finset.mem_range.mpr below))
    simp only [if_pos below, same, Option.getD_some]
  · cases found

namespace Weighed

theorem disabled (done : Weighed libm afl weighed) {i : Nat} (below : i < afl.queuedItems) :
    (weighed.queueBuf i).disabled = (afl.queueBuf i).disabled :=
  weighEntry_disabled (done.entries i below)

theorem enabled_eq (done : Weighed libm afl weighed) : weighed.enabled = afl.enabled := by
  unfold Scheduler.enabled
  rw [done.items]
  refine Finset.filter_congr fun i member => ?_
  rw [done.disabled (Finset.mem_range.mp member)]

theorem boosted_eq (done : Weighed libm afl weighed) (i : Nat) :
    boosted weighed i = boosted afl i := by
  rcases Nat.lt_or_ge i afl.queuedItems with below | behind
  · simp only [boosted, done.items, done.schedule, done.discovered, done.disabled below]
  · have outside : decide (i < afl.queuedItems) = false := by simpa using behind
    simp only [boosted, done.items, outside, Bool.and_false, Bool.false_and]

theorem measure_nonneg (done : Weighed libm afl weighed) {i : Nat} (member : i ∈ afl.enabled) :
    0 ≤ weighed.measure i := by
  obtain ⟨inRange, enabled⟩ := Finset.mem_filter.mp member
  obtain ⟨score, after, _, perfScore, weight⟩ :=
    weighEntry_enabled enabled (done.entries i (Finset.mem_range.mp inRange))
  unfold Scheduler.measure
  rw [done.schedule]
  split
  · next early =>
    rw [weight early]
    exact (computeWeight_pos libm afl _).le
  · rw [perfScore]
    exact Nat.cast_nonneg _

/-- Only under `RARE` an entry can end up without a score. -/
theorem measure_pos (done : Weighed libm afl weighed) {i : Nat} (member : i ∈ afl.enabled)
    (scored : afl.schedule = .rare → ∀ score after,
      calculateScore libm afl (afl.queueBuf i) = some (score, after) → score ≠ 0) :
    0 < weighed.measure i := by
  obtain ⟨inRange, enabled⟩ := Finset.mem_filter.mp member
  obtain ⟨score, after, found, perfScore, weight⟩ :=
    weighEntry_enabled enabled (done.entries i (Finset.mem_range.mp inRange))
  unfold Scheduler.measure
  rw [done.schedule]
  split
  · next early =>
    rw [weight early]
    exact computeWeight_pos libm afl _
  · next late =>
    rw [perfScore]
    have positive : 0 < score := by
      cases schedule : afl.schedule with
      | rare => exact Nat.pos_of_ne_zero (scored schedule score after found)
      | seek => exact calculateScore_seek libm afl _ schedule found
      | _ => exact absurd (by simp [schedule, Schedule.number]) late
    exact_mod_cast positive

end Weighed

end

/-! ## Normalisation -/

section

variable {libm : Libm} {afl weighed : Scheduler}

theorem boost_disabled (i : Nat) :
    ((boost weighed).queueBuf i).disabled = (weighed.queueBuf i).disabled := by
  simp only [boost]
  split <;> rfl

/-- Doubled weights count twice. -/
theorem boost_finalWeight (i : Nat) : (boost weighed).finalWeight i =
    (if (weighed.queueBuf i).disabled then 0 else weighed.measure i) +
      (if boosted weighed i then weighed.measure i else 0) := by
  unfold Scheduler.finalWeight
  rw [boost_disabled]
  cases doubled : boosted weighed i with
  | false =>
      have same : (boost weighed).measure i = weighed.measure i := by
        simp only [Scheduler.measure, boost, doubled, Bool.false_eq_true, if_false]
      rw [same, if_neg Bool.false_ne_true, add_zero]
  | true =>
      obtain ⟨⟨⟨⟨⟨schedule, _⟩, _⟩, _⟩, _⟩, enabled⟩ := by
        simpa only [boosted, Bool.and_eq_true, decide_eq_true_eq, Bool.not_eq_true'] using doubled
      have early : weighed.schedule.number < Schedule.rare.number := by
        simp [schedule, Schedule.number]
      have twice : (boost weighed).measure i = weighed.measure i * 2 := by
        simp only [Scheduler.measure, boost, doubled, early, if_true]
      rw [twice, enabled]
      simp only [Bool.false_eq_true, if_false, if_true]
      ring

theorem boost_total : ∑ i ∈ Finset.range weighed.queuedItems, (boost weighed).finalWeight i =
    weighed.sum +
      ∑ i ∈ Finset.range weighed.queuedItems, if boosted weighed i then weighed.measure i else 0 := by
  rw [Finset.sum_congr rfl fun i _ => boost_finalWeight i, Finset.sum_add_distrib, Scheduler.sum,
    Scheduler.enabled, Finset.sum_filter]
  congr 1
  refine Finset.sum_congr rfl fun i _ => ?_
  cases (weighed.queueBuf i).disabled <;> rfl

theorem boosted_enabled {i : Nat} (doubled : boosted weighed i = true) : i ∈ weighed.enabled := by
  obtain ⟨⟨_, below⟩, enabled⟩ := by
    simpa only [boosted, Bool.and_eq_true, decide_eq_true_eq, Bool.not_eq_true'] using doubled
  exact Finset.mem_filter.mpr ⟨Finset.mem_range.mpr below, enabled⟩

theorem aliasTableOf_P (i : Nat) : (aliasTableOf weighed).P i =
    (boost weighed).finalWeight i * weighed.queuedItems / weighed.sum := by
  simp only [aliasTableOf, Scheduler.finalWeight]
  split
  · rw [zero_mul, zero_div]
  · rfl

/-- The table is right exactly when the sum that was taken is positive and is that
of the weights in use. -/
theorem aliasTableOf_normalised_iff (some : weighed.enabled.Nonempty)
    (nonneg : ∀ i ∈ weighed.enabled, 0 ≤ weighed.measure i) :
    (aliasTableOf weighed).Normalised ↔ 0 < weighed.sum ∧
      ∑ i ∈ Finset.range weighed.queuedItems, (boost weighed).finalWeight i = weighed.sum := by
  have items : (0 : ℚ) < weighed.queuedItems := by
    obtain ⟨i, member⟩ := some
    have below := Finset.mem_range.mp (Finset.mem_filter.mp member).1
    exact_mod_cast Nat.zero_lt_of_lt below
  have total : ∑ i ∈ Finset.range weighed.queuedItems, (aliasTableOf weighed).P i =
      (∑ i ∈ Finset.range weighed.queuedItems, (boost weighed).finalWeight i) *
        weighed.queuedItems / weighed.sum := by
    rw [Finset.sum_congr rfl fun i _ => aliasTableOf_P i, ← Finset.sum_div, ← Finset.sum_mul]
  have sumNonneg : 0 ≤ weighed.sum := Finset.sum_nonneg nonneg
  constructor
  · intro normalised
    have sumsUp : _ = (weighed.queuedItems : ℚ) := total.symm.trans normalised.total
    have positive : 0 < weighed.sum := by
      refine lt_of_le_of_ne sumNonneg fun zero => ?_
      rw [← zero, div_zero] at sumsUp
      exact items.ne sumsUp
    refine ⟨positive, ?_⟩
    rw [div_eq_iff positive.ne', mul_comm (weighed.queuedItems : ℚ)] at sumsUp
    exact mul_right_cancel₀ items.ne' sumsUp
  · rintro ⟨positive, same⟩
    rw [same, mul_div_right_comm, div_self positive.ne', one_mul] at total
    have weightNonneg : ∀ i < weighed.queuedItems, 0 ≤ (boost weighed).finalWeight i := by
      intro i below
      rw [boost_finalWeight]
      apply add_nonneg
      · split
        · exact le_rfl
        · next enabled =>
          exact nonneg i (Finset.mem_filter.mpr ⟨Finset.mem_range.mpr below, by simpa using enabled⟩)
      · split
        · next doubled => exact nonneg i (boosted_enabled doubled)
        · exact le_rfl
    refine ⟨total, fun i below => ?_, fun i below disabled => ?_⟩
    · have shareNonneg : ∀ s < weighed.queuedItems, 0 ≤ (aliasTableOf weighed).P s := by
        intro s inside
        rw [aliasTableOf_P]
        exact div_nonneg (mul_nonneg (weightNonneg s inside) items.le) positive.le
      have drawn := AliasArrays.build_selection shareNonneg total below
      rw [aliasTableOf_P] at drawn
      refine drawn.trans ?_
      change _ = (boost weighed).finalWeight i /
        ∑ j ∈ Finset.range weighed.queuedItems, (boost weighed).finalWeight j
      rw [same]
      field_simp
    · have nothing : (boost weighed).finalWeight i = 0 := if_pos disabled
      rw [aliasTableOf_P, nothing, zero_mul, zero_div]

end

/-! ## The claim -/

/-- What the table needs: no score divides by zero, no weight is doubled after the
sum was taken, and under `RARE` some entry has a score. -/
structure Weighable (libm : Libm) (afl : Scheduler) : Prop where
  divides : afl.Divides
  single : ∀ i, boosted afl i = false
  scored : afl.schedule = .rare → ∃ i ∈ afl.enabled, ∀ score after,
    calculateScore libm afl (afl.queueBuf i) = some (score, after) → score ≠ 0

theorem Weighed.sum_pos_iff {libm : Libm} {afl weighed : Scheduler}
    (done : Weighed libm afl weighed) (active : afl.enabled.Nonempty) :
    0 < weighed.sum ↔ (afl.schedule = .rare → ∃ i ∈ afl.enabled, ∀ score after,
      calculateScore libm afl (afl.queueBuf i) = some (score, after) → score ≠ 0) := by
  unfold Scheduler.sum
  rw [done.enabled_eq]
  constructor
  · intro positive rare
    by_contra missing
    simp only [not_exists, not_and, not_forall, not_not] at missing
    have nothing : ∀ i ∈ afl.enabled, weighed.measure i = 0 := by
      intro i member
      obtain ⟨score, after, found, zero⟩ := missing i member
      obtain ⟨inRange, enabled⟩ := Finset.mem_filter.mp member
      obtain ⟨other, _, same, perfScore, _⟩ :=
        weighEntry_enabled enabled (done.entries i (Finset.mem_range.mp inRange))
      have late : ¬ weighed.schedule.number < Schedule.rare.number := by
        rw [done.schedule, rare]
        exact Nat.lt_irrefl _
      have agree : score = other := (Prod.mk.inj (Option.some.inj (found.symm.trans same))).1
      rw [Scheduler.measure, if_neg late, perfScore, ← agree, zero, Nat.cast_zero]
    rw [Finset.sum_eq_zero nothing] at positive
    exact lt_irrefl _ positive
  · intro scored
    obtain ⟨i, member, score⟩ : ∃ i ∈ afl.enabled, afl.schedule = .rare → ∀ score after,
        calculateScore libm afl (afl.queueBuf i) = some (score, after) → score ≠ 0 := by
      by_cases rare : afl.schedule = .rare
      · obtain ⟨i, member, score⟩ := scored rare
        exact ⟨i, member, fun _ => score⟩
      · obtain ⟨i, member⟩ := active
        exact ⟨i, member, fun now => absurd now rare⟩
    exact Finset.sum_pos' (fun j inside => done.measure_nonneg inside)
      ⟨i, member, done.measure_pos member score⟩

/-- Nothing is added to a positive sum exactly when no weight is doubled. -/
theorem Weighed.sum_boosted_iff {libm : Libm} {afl weighed : Scheduler}
    (done : Weighed libm afl weighed) :
    ∑ i ∈ Finset.range weighed.queuedItems, (boost weighed).finalWeight i = weighed.sum ↔
      ∀ i, boosted afl i = false := by
  have positive : ∀ i, boosted weighed i = true → 0 < weighed.measure i := by
    intro i doubled
    have member := boosted_enabled doubled
    rw [done.enabled_eq] at member
    refine done.measure_pos member fun rare => ?_
    simp only [boosted, done.schedule, rare, reduceCtorEq, decide_false, Bool.false_and,
      Bool.false_eq_true] at doubled
  rw [boost_total, add_eq_left, Finset.sum_eq_zero_iff_of_nonneg]
  · constructor
    · intro nothing i
      rw [← done.boosted_eq]
      by_contra doubled
      rw [Bool.not_eq_false] at doubled
      have inRange := (Finset.mem_filter.mp (boosted_enabled doubled)).1
      have zero := nothing i inRange
      rw [if_pos doubled] at zero
      exact (positive i doubled).ne' zero
    · intro single i _
      rw [done.boosted_eq, single i]
      rfl
  · intro i _
    split
    · next doubled => exact (positive i doubled).le
    · exact le_rfl

theorem Weighable.normalised {libm : Libm} {afl : Scheduler} (active : afl.enabled.Nonempty)
    (weighable : Weighable libm afl) :
    ∃ table, createAliasTable libm afl = some table ∧ table.Normalised := by
  obtain ⟨weighed, found⟩ :=
    Option.isSome_iff_exists.mp ((@weighQueue_isSome_iff libm afl).mpr weighable.divides)
  have done := weighQueue_spec found
  refine ⟨aliasTableOf weighed, by rw [createAliasTable, found, Option.map_some], ?_⟩
  rw [aliasTableOf_normalised_iff (done.enabled_eq ▸ active) fun i member =>
    done.measure_nonneg (done.enabled_eq ▸ member)]
  exact ⟨(done.sum_pos_iff active).mpr weighable.scored,
    done.sum_boosted_iff.mpr weighable.single⟩

theorem AliasTable.Normalised.weighable {libm : Libm} {afl : Scheduler} {table : AliasTable}
    (normalised : table.Normalised) (active : afl.enabled.Nonempty)
    (created : createAliasTable libm afl = some table) : Weighable libm afl := by
  obtain ⟨weighed, found, rfl⟩ := Option.map_eq_some_iff.mp created
  have done := weighQueue_spec found
  rw [aliasTableOf_normalised_iff (done.enabled_eq ▸ active) fun i member =>
    done.measure_nonneg (done.enabled_eq ▸ member)] at normalised
  exact ⟨weighQueue_isSome_iff.mp (by rw [found]; rfl), done.sum_boosted_iff.mp normalised.2,
    (done.sum_pos_iff active).mp normalised.1⟩

/-- The weights in use are normalised exactly when the sum was taken after every
change to them and is not zero. -/
theorem createAliasTable_normalised_iff (libm : Libm) (afl : Scheduler)
    (active : afl.enabled.Nonempty) :
    (∃ table, createAliasTable libm afl = some table ∧ table.Normalised) ↔
      Weighable libm afl := by
  constructor
  · rintro ⟨table, created, normalised⟩
    exact normalised.weighable active created
  · exact fun weighable => weighable.normalised active

/-! ## One entry -/

/-- The logarithms of powers of two to the base 2, and those of 1. -/
def wholeLogs : Libm where
  log := fun x => Nat.log2 x
  log2 := fun x => Nat.log2 x
  log10 := fun x => Nat.log 10 x
  log10_nonneg := fun _ _ => Nat.cast_nonneg _

def oneEntry (schedule : Schedule) : Scheduler where
  queueBuf := fun _ =>
    { QueueEntry.fresh 10 with bitmapSize := 1, handicap := 0, depth := 1, perfScore := 0, weight := 0 }
  queuedItems := 1
  queuedDiscovered := 1
  schedule
  fixedSeed := false
  nFuzz := fun _ => 1
  maxDepth := 1
  limitTimeSig := false
  totalCalUs := 100
  totalCalCycles := 8
  totalBitmapSize := 1
  totalBitmapEntries := 1
  totalExecs := 10

theorem createAliasTable_normalised_iff_explore :
    ∃ table, createAliasTable wholeLogs (oneEntry .explore) = some table ∧ table.Normalised := by
  apply (createAliasTable_normalised_iff wholeLogs (oneEntry .explore) ⟨0, by decide⟩).mpr
  refine ⟨?_, ?_, ?_⟩
  · rintro (lin | quad)
    · cases lin
    · cases quad
  · exact fun i => rfl
  · exact fun rare => by cases rare

/-- Under MMOPT the newest entries count twice, but not in the sum. -/
theorem createAliasTable_mmopt :
    ¬ ∀ (libm : Libm) (afl : Scheduler), afl.enabled.Nonempty →
      ∃ table, createAliasTable libm afl = some table ∧ table.Normalised := by
  intro holds
  have active : (oneEntry .mmopt).enabled.Nonempty := ⟨0, by decide⟩
  obtain ⟨table, created, normalised⟩ := holds wholeLogs (oneEntry .mmopt) active
  have single := (normalised.weighable active created).single 0
  exact absurd single (by decide)

end SbFuzz.Fuzzer
