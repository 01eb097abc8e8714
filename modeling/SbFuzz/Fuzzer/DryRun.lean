import SbFuzz.Systems.Loops

/-! The last part of `perform_dry_run`: of the seeds with one trace only the shortest
stays in the queue. -/

set_option autoImplicit false

namespace SbFuzz.Fuzzer.DryRun

open Systems

/-! ## The pass -/

structure QueueEntry where
  len : UInt32
  depth : UInt64
  execCksum : UInt64
  calFailed : UInt8
  wasFuzzed : Bool
  disabled : Bool
  perfScore : Rat

structure Afl where
  queueBuf : Nat → QueueEntry
  queuedItems : Nat
  queue : Nat
  queueTop : Nat
  maxDepth : UInt64
  reinitTable : Bool
  pendingNotFuzzed : Nat
  activeItems : Nat

structure Pass where
  afl : Afl
  duplicates : Bool

/-- `!(disabled || cal_failed || !exec_cksum)` -/
def QueueEntry.Compared (entry : QueueEntry) : Prop :=
  entry.disabled = false ∧ entry.calFailed = 0 ∧ entry.execCksum ≠ 0

instance (entry : QueueEntry) : Decidable entry.Compared := inferInstanceAs (Decidable (_ ∧ _))

/-- The entry goes out of the queue. -/
def Pass.disable (pass : Pass) (k : Nat) : Pass where
  afl :=
    let afl := pass.afl
    let entry := afl.queueBuf k
    { afl with
      queueBuf := Function.update afl.queueBuf k
        { entry with wasFuzzed := true, disabled := true, perfScore := 0 }
      reinitTable := afl.reinitTable || !entry.wasFuzzed
      pendingNotFuzzed := if entry.wasFuzzed then afl.pendingNotFuzzed else afl.pendingNotFuzzed - 1
      activeItems := if entry.wasFuzzed then afl.activeItems else afl.activeItems - 1 }
  duplicates := true

/-- The inner loop, for the entry `idx` and the entries behind it; it ends when it disables
the entry itself. -/
def Pass.compare (pass : Pass) (idx : Nat) : List Nat → Pass
  | [] => pass
  | i :: rest =>
    if (pass.afl.queueBuf i).Compared then
      if (pass.afl.queueBuf i).execCksum = (pass.afl.queueBuf idx).execCksum then
        -- The shorter file is kept.
        if (pass.afl.queueBuf idx).len ≤ (pass.afl.queueBuf i).len then
          (pass.disable i).compare idx rest
        else pass.disable idx
      else pass.compare idx rest
    else pass.compare idx rest

/-- A round of the outer loop. -/
def Pass.round (pass : Pass) (idx : Nat) : Pass :=
  if (pass.afl.queueBuf idx).Compared then
    pass.compare idx (List.range' (idx + 1) (pass.afl.queuedItems - (idx + 1)))
  else pass

/-- The depth of the deepest entry that is enabled. -/
def Afl.deepest (afl : Afl) : UInt64 :=
  (List.range afl.queuedItems).foldl (fun depth idx =>
    if (afl.queueBuf idx).disabled = false ∧ depth < (afl.queueBuf idx).depth then
      (afl.queueBuf idx).depth
    else depth) 0

/-- The pass, on a queue that is not empty. -/
def removeDuplicates (afl : Afl) : Afl :=
  let pass := (List.range (afl.queuedItems - 1)).foldl Pass.round ⟨afl, false⟩
  if pass.duplicates then
    { pass.afl with maxDepth := pass.afl.deepest, queueTop := pass.afl.queue }
  else pass.afl

/-! ## What is kept -/

/-- The entries are the same but for marks, and for each entry that was compared before there is
one that still is, with the same trace and not longer. -/
structure Afl.Thinned (before after : Afl) : Prop where
  items : after.queuedItems = before.queuedItems
  len : ∀ k, (after.queueBuf k).len = (before.queueBuf k).len
  execCksum : ∀ k, (after.queueBuf k).execCksum = (before.queueBuf k).execCksum
  compared : ∀ k, (after.queueBuf k).Compared → (before.queueBuf k).Compared
  kept : ∀ k < before.queuedItems, (before.queueBuf k).Compared →
    ∃ j < before.queuedItems, (after.queueBuf j).Compared ∧
      (before.queueBuf j).execCksum = (before.queueBuf k).execCksum ∧
      (before.queueBuf j).len ≤ (before.queueBuf k).len

theorem Afl.Thinned.refl (afl : Afl) : afl.Thinned afl :=
  ⟨rfl, fun _ => rfl, fun _ => rfl, fun _ => id, fun k below compared =>
    ⟨k, below, compared, rfl, UInt32.le_refl _⟩⟩

theorem Afl.Thinned.trans {first second third : Afl} (left : first.Thinned second)
    (right : second.Thinned third) : first.Thinned third where
  items := right.items.trans left.items
  len k := (right.len k).trans (left.len k)
  execCksum k := (right.execCksum k).trans (left.execCksum k)
  compared k now := left.compared k (right.compared k now)
  kept k below compared := by
    obtain ⟨j, inside, still, cksum, len⟩ := left.kept k below compared
    obtain ⟨i, within, now, same, shorter⟩ := right.kept j (left.items ▸ inside) still
    rw [left.execCksum, left.execCksum] at same
    rw [left.len, left.len] at shorter
    exact ⟨i, left.items ▸ within, now, same.trans cksum, UInt32.le_trans shorter len⟩

theorem Pass.disable_compared (pass : Pass) (k j : Nat) :
    ((pass.disable k).afl.queueBuf j).Compared ↔ j ≠ k ∧ (pass.afl.queueBuf j).Compared := by
  unfold disable
  dsimp only
  by_cases same : j = k
  · rw [same, Function.update_self]
    exact iff_of_false (fun compared => Bool.false_ne_true compared.1.symm) fun other => other.1 rfl
  · rw [Function.update_of_ne same]
    exact (and_iff_right same).symm

theorem Pass.disable_thinned (pass : Pass) {k j : Nat} (different : j ≠ k)
    (inQueue : j < pass.afl.queuedItems) (compared : (pass.afl.queueBuf j).Compared)
    (cksum : (pass.afl.queueBuf j).execCksum = (pass.afl.queueBuf k).execCksum)
    (len : (pass.afl.queueBuf j).len ≤ (pass.afl.queueBuf k).len) :
    pass.afl.Thinned (pass.disable k).afl := by
  have marks : ∀ i, ((pass.disable k).afl.queueBuf i).len = (pass.afl.queueBuf i).len ∧
      ((pass.disable k).afl.queueBuf i).execCksum = (pass.afl.queueBuf i).execCksum := by
    intro i
    unfold disable
    dsimp only
    by_cases same : i = k
    · rw [same, Function.update_self]
      exact ⟨rfl, rfl⟩
    · rw [Function.update_of_ne same]
      exact ⟨rfl, rfl⟩
  refine ⟨rfl, fun i => (marks i).1, fun i => (marks i).2, fun i now => ?_, fun i below before => ?_⟩
  · exact ((pass.disable_compared k i).mp now).2
  · by_cases same : i = k
    · rw [same]
      exact ⟨j, inQueue, (pass.disable_compared k j).mpr ⟨different, compared⟩, cksum, len⟩
    · exact ⟨i, below, (pass.disable_compared k i).mpr ⟨same, before⟩, rfl, UInt32.le_refl _⟩

/-- The entry has the trace of no other one that is compared. -/
def Afl.Alone (afl : Afl) (idx i : Nat) : Prop :=
  (afl.queueBuf idx).Compared → (afl.queueBuf i).Compared →
    (afl.queueBuf i).execCksum ≠ (afl.queueBuf idx).execCksum

theorem Afl.Alone.mono {before after : Afl} {idx i : Nat} (alone : before.Alone idx i)
    (thinned : before.Thinned after) : after.Alone idx i := by
  intro first second
  rw [thinned.execCksum, thinned.execCksum]
  exact alone (thinned.compared idx first) (thinned.compared i second)

theorem Pass.compare_spec {pass : Pass} {idx : Nat} (inQueue : idx < pass.afl.queuedItems)
    (compared : (pass.afl.queueBuf idx).Compared) (later : List Nat)
    (behind : ∀ i ∈ later, idx < i ∧ i < pass.afl.queuedItems) :
    pass.afl.Thinned (pass.compare idx later).afl ∧
      ∀ i ∈ later, (pass.compare idx later).afl.Alone idx i := by
  induction later generalizing pass with
  | nil => exact ⟨.refl _, fun i member => (List.not_mem_nil member).elim⟩
  | cons i rest ih =>
    obtain ⟨after, inside⟩ := behind i List.mem_cons_self
    have others : ∀ j ∈ rest, idx < j ∧ j < pass.afl.queuedItems :=
      fun j member => behind j (List.mem_cons_of_mem _ member)
    unfold compare
    split
    · next present =>
      split
      · next same =>
        split
        · next longer =>
          have thinned := pass.disable_thinned (Nat.ne_of_lt after) inQueue compared same.symm longer
          have still := (pass.disable_compared i idx).mpr ⟨Nat.ne_of_lt after, compared⟩
          obtain ⟨further, alone⟩ := @ih (pass.disable i) inQueue still others
          refine ⟨thinned.trans further, fun j member => ?_⟩
          rcases List.mem_cons.mp member with rfl | rest
          · intro _ second
            have gone := (pass.disable_compared j j).mp (further.compared j second)
            exact (gone.1 rfl).elim
          · exact alone j rest
        · next shorter =>
          have thinned := pass.disable_thinned (Nat.ne_of_gt after) inside present same
            (UInt32.le_of_lt (UInt32.not_le.mp shorter))
          refine ⟨thinned, fun j _ first => ?_⟩
          exact (((pass.disable_compared idx idx).mp first).1 rfl).elim
      · next different =>
        obtain ⟨thinned, alone⟩ := ih inQueue compared others
        refine ⟨thinned, fun j member => ?_⟩
        rcases List.mem_cons.mp member with rfl | rest
        · have distinct : pass.afl.Alone idx j := fun _ _ => different
          exact distinct.mono thinned
        · exact alone j rest
    · next absent =>
      obtain ⟨thinned, alone⟩ := ih inQueue compared others
      refine ⟨thinned, fun j member => ?_⟩
      rcases List.mem_cons.mp member with rfl | rest
      · exact fun _ second => (absent (thinned.compared j second)).elim
      · exact alone j rest

theorem Pass.round_spec {pass : Pass} {idx : Nat} (inQueue : idx < pass.afl.queuedItems) :
    pass.afl.Thinned (pass.round idx).afl ∧
      ∀ i, idx < i → i < pass.afl.queuedItems → (pass.round idx).afl.Alone idx i := by
  unfold round
  split
  · next compared =>
    have spec := Pass.compare_spec inQueue compared
      (List.range' (idx + 1) (pass.afl.queuedItems - (idx + 1))) fun i member => by
        obtain ⟨low, high⟩ := List.mem_range'_1.mp member
        omega
    refine ⟨spec.1, fun i after inside => spec.2 i ?_⟩
    exact List.mem_range'_1.mpr (by omega)
  · next absent => exact ⟨.refl _, fun _ _ _ first => (absent first).elim⟩

theorem removeDuplicates_spec (afl : Afl) :
    afl.Thinned (removeDuplicates afl) ∧
      ∀ idx i, idx < i → i < afl.queuedItems → (removeDuplicates afl).Alone idx i := by
  have loop : (∀ idx i, idx < afl.queuedItems - 1 → idx < i → i < afl.queuedItems →
        ((List.range (afl.queuedItems - 1)).foldl Pass.round ⟨afl, false⟩).afl.Alone idx i) ∧
      afl.Thinned ((List.range (afl.queuedItems - 1)).foldl Pass.round ⟨afl, false⟩).afl := by
    refine foldl_range_induction (fun n (pass : Pass) =>
      (∀ idx i, idx < n → idx < i → i < afl.queuedItems → pass.afl.Alone idx i) ∧
        afl.Thinned pass.afl) ?_ ?_
    · exact ⟨fun _ _ below => (Nat.not_lt_zero _ below).elim, .refl _⟩
    · intro n below pass state
      obtain ⟨alone, thinned⟩ := state
      have inQueue : n < pass.afl.queuedItems := by
        rw [thinned.items]
        omega
      obtain ⟨further, distinct⟩ := Pass.round_spec inQueue
      refine ⟨fun idx i before after inside => ?_, thinned.trans further⟩
      rcases Nat.lt_succ_iff_lt_or_eq.mp before with earlier | rfl
      · exact (alone idx i earlier after inside).mono further
      · exact distinct i after (thinned.items.symm ▸ inside)
  unfold removeDuplicates
  dsimp only
  split
  · exact ⟨⟨loop.2.items, loop.2.len, loop.2.execCksum, loop.2.compared, loop.2.kept⟩,
      fun idx i after inside => loop.1 idx i (by omega) after inside⟩
  · exact ⟨loop.2, fun idx i after inside => loop.1 idx i (by omega) after inside⟩

/-- The enabled, calibrated entries with a checksum have different ones, and for every checksum
that there was, an entry of minimal length is still enabled. -/
theorem removeDuplicates_keeps_shortest (afl : Afl) :
    (∀ i < afl.queuedItems, ∀ j < afl.queuedItems, i ≠ j →
      ((removeDuplicates afl).queueBuf i).Compared → ((removeDuplicates afl).queueBuf j).Compared →
      ((removeDuplicates afl).queueBuf i).execCksum ≠
        ((removeDuplicates afl).queueBuf j).execCksum) ∧
    ∀ k < afl.queuedItems, (afl.queueBuf k).Compared →
      ∃ j < afl.queuedItems, ((removeDuplicates afl).queueBuf j).Compared ∧
        (afl.queueBuf j).execCksum = (afl.queueBuf k).execCksum ∧
        ∀ i < afl.queuedItems, (afl.queueBuf i).Compared →
          (afl.queueBuf i).execCksum = (afl.queueBuf k).execCksum →
          (afl.queueBuf j).len ≤ (afl.queueBuf i).len := by
  obtain ⟨thinned, alone⟩ := removeDuplicates_spec afl
  refine ⟨fun i inQueue j inside different first second same => ?_, fun k below compared => ?_⟩
  · rcases Nat.lt_or_gt_of_ne different with less | more
    · exact alone i j less inside first second same.symm
    · exact alone j i more inQueue second first same
  · obtain ⟨j, inQueue, still, cksum, -⟩ := thinned.kept k below compared
    refine ⟨j, inQueue, still, cksum, fun i inside before same => ?_⟩
    obtain ⟨shortest, within, now, trace, len⟩ := thinned.kept i inside before
    -- Both are what is left for this checksum.
    have one : shortest = j := by
      by_contra different
      have equal : ((removeDuplicates afl).queueBuf shortest).execCksum =
          ((removeDuplicates afl).queueBuf j).execCksum := by
        rw [thinned.execCksum, thinned.execCksum, trace, same, cksum]
      rcases Nat.lt_or_gt_of_ne different with less | more
      · exact alone shortest j less inQueue now still equal.symm
      · exact alone j shortest more within still now equal
    exact one ▸ len

end SbFuzz.Fuzzer.DryRun
