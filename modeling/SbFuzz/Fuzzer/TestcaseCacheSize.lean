import Mathlib.Algebra.Order.BigOperators.Group.Finset
import SbFuzz.Fuzzer.TestcaseCacheProperties

/-! The size that the testcase cache counts, and the lengths of what is in it. -/

set_option autoImplicit false

namespace SbFuzz.Fuzzer.TestcaseCache

open Systems

/-- The length of the entry in a slot. -/
def Afl.slotLen (afl : Afl) (tid : Nat) : Nat :=
  (afl.cache tid).elim 0 fun q => (afl.queueBuf q).len.toNat

/-- The lengths of all entries in the cache. -/
def Afl.cachedLen (afl : Afl) : Nat := ∑ tid ∈ Finset.range afl.maxCacheCount, afl.slotLen tid

/-- The size that is counted is that of the buffers. -/
structure Afl.Exact (afl : Afl) : Prop where
  size : afl.cacheSize.toNat = afl.cachedLen
  buffers : ∀ q size, (afl.queueBuf q).testcaseBuf = some size → size = (afl.queueBuf q).len

theorem sum_range_of_eq_off {f g : Nat → Nat} {k n : Nat} (inside : k < n)
    (same : ∀ i, i ≠ k → g i = f i) :
    ∑ i ∈ Finset.range n, g i + f k = ∑ i ∈ Finset.range n, f i + g k := by
  have member : k ∈ Finset.range n := Finset.mem_range.mpr inside
  have rest : ∑ i ∈ (Finset.range n).erase k, g i = ∑ i ∈ (Finset.range n).erase k, f i :=
    Finset.sum_congr rfl fun i other => same i (Finset.ne_of_mem_erase other)
  have left := Finset.add_sum_erase (Finset.range n) g member
  have right := Finset.add_sum_erase (Finset.range n) f member
  omega

section

variable {afl : Afl}

theorem Afl.slotLen_lt (afl : Afl) (tid : Nat) : afl.slotLen tid ≤ 2 ^ 32 - 1 := by
  unfold slotLen
  cases afl.cache tid with
  | none => exact Nat.zero_le _
  | some q => exact Nat.le_sub_one_of_lt (afl.queueBuf q).len.toNat_lt

theorem Afl.Valid.cachedLen_lt (valid : afl.Valid) : afl.cachedLen < 2 ^ 64 := by
  have most := valid.most
  have wide := valid.wide
  have bound : afl.cachedLen ≤ afl.maxCacheCount * (2 ^ 32 - 1) := by
    have each := Finset.sum_le_sum fun tid (_ : tid ∈ Finset.range afl.maxCacheCount) =>
      afl.slotLen_lt tid
    rwa [Finset.sum_const_nat fun _ _ => rfl, Finset.card_range] at each
  omega

theorem cachedLen_of_eq_off {before after : Afl} {tid : Nat}
    (most : after.maxCacheCount = before.maxCacheCount) (inside : tid < before.maxCacheCount)
    (same : ∀ s, s ≠ tid → after.slotLen s = before.slotLen s) :
    after.cachedLen + before.slotLen tid = before.cachedLen + after.slotLen tid := by
  unfold Afl.cachedLen
  rw [most]
  exact sum_range_of_eq_off inside same

/-! ## The operations -/

theorem Afl.slotLen_of_cache {tid q : Nat} (holds : afl.cache tid = some q) :
    afl.slotLen tid = (afl.queueBuf q).len.toNat := by
  rw [Afl.slotLen, holds]
  rfl

theorem Afl.slotLen_congr {before after : Afl} {tid : Nat}
    (cache : after.cache tid = before.cache tid)
    (lens : ∀ q, before.cache tid = some q → (after.queueBuf q).len = (before.queueBuf q).len) :
    after.slotLen tid = before.slotLen tid := by
  unfold Afl.slotLen
  rw [cache]
  cases holds : before.cache tid with
  | none => rfl
  | some q => exact congrArg UInt32.toNat (lens q holds)

theorem Afl.modify_len {q : Nat} {change : QueueEntry → QueueEntry}
    (len : (change (afl.queueBuf q)).len = (afl.queueBuf q).len) (r : Nat) :
    ((afl.modify q change).queueBuf r).len = (afl.queueBuf r).len := by
  dsimp only [Afl.modify]
  rw [Function.update_apply]
  split
  · next same => rw [same, len]
  · rfl

theorem Afl.register_len (afl : Afl) (q tid r : Nat) :
    ((afl.register q tid).queueBuf r).len = (afl.queueBuf r).len :=
  @Afl.modify_len afl q (fun entry => { entry with testcaseBuf := some entry.len }) rfl r

theorem Afl.Exact.learn (exact : afl.Exact) (len : UInt32) : (afl.learn len).Exact := by
  unfold Afl.learn
  split
  · exact ⟨exact.size, exact.buffers⟩
  · exact exact

theorem Afl.Exact.evict (exact : afl.Exact) (valid : afl.Valid) {after : Afl} {tid : Nat}
    (evicts : afl.evict tid = some after) : after.Exact := by
  obtain ⟨old, holds, same⟩ := Valid.evict_cases evicts
  have inside := valid.below tid (Valid.occupied_of_cache holds)
  have entries : after.queueBuf =
      (afl.modify old fun entry => { entry with testcaseBuf := none }).queueBuf := by rw [same]
  have cache : after.cache = Function.update afl.cache tid none := by rw [same]
  have most : after.maxCacheCount = afl.maxCacheCount := by
    rw [same]
    rfl
  have others : ∀ s, s ≠ tid → after.slotLen s = afl.slotLen s := by
    intro s other
    refine Afl.slotLen_congr ?_ fun q _ => ?_
    · rw [cache, Function.update_of_ne other]
    · rw [entries]
      exact Afl.modify_len rfl q
  have empty : after.slotLen tid = 0 := by
    rw [Afl.slotLen, cache, Function.update_self]
    rfl
  have changed := cachedLen_of_eq_off most inside others
  rw [empty, Afl.slotLen_of_cache holds, Nat.add_zero, ← exact.size] at changed
  constructor
  case size =>
    have less : (afl.queueBuf old).len.toUInt64 ≤ afl.cacheSize := by
      rw [UInt64.le_iff_toNat_le, UInt32.toNat_toUInt64]
      omega
    have counted : after.cacheSize = afl.cacheSize - (afl.queueBuf old).len.toUInt64 := by rw [same]
    rw [counted, UInt64.toNat_sub_of_le _ _ less, UInt32.toNat_toUInt64]
    omega
  case buffers =>
    intro q size made
    rw [entries] at made ⊢
    dsimp only [Afl.modify] at made ⊢
    rw [Function.update_apply] at made ⊢
    split at made
    · cases made
    · next other =>
      rw [if_neg other]
      exact exact.buffers q size made

theorem Afl.Exact.makeRoom (exact : afl.Exact) (valid : afl.Valid) (len : UInt32)
    {draws : List Nat} {after : Afl} {tid found : Nat}
    (makes : Afl.makeRoom len draws afl tid = some (after, found)) : after.Exact := by
  induction draws generalizing afl tid with
  | nil =>
    unfold Afl.makeRoom at makes
    split at makes
    · cases makes
    · cases makes
      exact exact
  | cons draw draws ih =>
    unfold Afl.makeRoom at makes
    split at makes
    · obtain ⟨next, evicts, loops⟩ := Option.bind_eq_some_iff.mp makes
      have learned := valid.learn len
      exact ih ((exact.learn len).evict learned evicts) (learned.evict evicts).1 loops
    · cases makes
      exact exact

theorem Afl.Exact.register (exact : afl.Exact) {q tid : Nat} (free : afl.cache tid = none)
    (inside : tid ≤ afl.maxCacheCount) (after : (afl.register q tid).Valid) :
    (afl.register q tid).Exact := by
  have others : ∀ s, s ≠ tid → (afl.register q tid).slotLen s = afl.slotLen s := by
    intro s other
    refine Afl.slotLen_congr ?_ fun r _ => ?_
    · exact Function.update_of_ne other _ _
    · exact afl.register_len q tid r
  have here : (afl.register q tid).slotLen tid = (afl.queueBuf q).len.toNat := by
    rw [@Afl.slotLen_of_cache (afl.register q tid) tid q (Function.update_self ..),
      afl.register_len]
  have before : afl.slotLen tid = 0 := by
    rw [Afl.slotLen, free]
    rfl
  have total : (afl.register q tid).cachedLen = afl.cachedLen + (afl.queueBuf q).len.toNat := by
    rcases Nat.eq_or_lt_of_le inside with rfl | less
    · have most : (afl.register q afl.maxCacheCount).maxCacheCount = afl.maxCacheCount + 1 :=
        if_pos (Nat.le_refl _)
      rw [Afl.cachedLen, most, Finset.sum_range_succ, here, Afl.cachedLen]
      refine congrArg (· + _) (Finset.sum_congr rfl fun s member => ?_)
      exact others s (Nat.ne_of_lt (Finset.mem_range.mp member))
    · have most : (afl.register q tid).maxCacheCount = afl.maxCacheCount :=
        if_neg (Nat.not_le.mpr less)
      have changed := cachedLen_of_eq_off most less others
      rw [before, here] at changed
      exact changed
  have bound := after.cachedLen_lt
  constructor
  case size =>
    have counted : (afl.register q tid).cacheSize =
        afl.cacheSize + (afl.queueBuf q).len.toUInt64 := rfl
    rw [counted, UInt64.toNat_add, UInt32.toNat_toUInt64, exact.size, ← total,
      Nat.mod_eq_of_lt bound]
  case buffers =>
    intro r size made
    rw [afl.register_len]
    dsimp only [Afl.register, Afl.modify] at made
    rw [Function.update_apply] at made
    split at made
    · next same => rw [← Option.some.inj made, same]
    · exact exact.buffers r size made

theorem Afl.Exact.get (exact : afl.Exact) (valid : afl.Valid) {q : Nat}
    (inQueue : q < afl.queuedItems) {draws : List Nat} {after : Afl}
    (gets : queueTestcaseGet afl q draws = some after) : after.Exact := by
  have afterValid := valid.get inQueue gets
  unfold queueTestcaseGet at gets
  dsimp only at gets
  split at gets
  · exact Option.some.inj gets ▸ exact
  · split at gets
    · exact Option.some.inj gets ▸ exact
    · obtain ⟨⟨roomy, tid⟩, makes, finds⟩ := Option.bind_eq_some_iff.mp gets
      obtain ⟨found, next, registered⟩ := Option.map_eq_some_iff.mp finds
      have room := Valid.makeRoom _ q draws valid (.inl rfl) makes
      obtain ⟨free, inside, -⟩ := room.valid.nextFree_bound room.few room.slot next
      rw [← registered] at afterValid ⊢
      exact (exact.makeRoom valid _ makes).register free inside afterValid

theorem Afl.Exact.storeMem (exact : afl.Exact) (valid : afl.Valid) {q : Nat}
    (inQueue : q < afl.queuedItems) (bare : (afl.queueBuf q).testcaseBuf = none) {after : Afl}
    (stores : queueTestcaseStoreMem afl q = some after) : after.Exact := by
  have afterValid := valid.storeMem inQueue bare stores
  unfold queueTestcaseStoreMem at stores
  split at stores
  · exact Option.some.inj stores ▸ exact
  · next proceeds =>
    obtain ⟨found, next, registered⟩ := Option.map_eq_some_iff.mp stores
    have few : afl.cacheCount < afl.mostEntries :=
      Nat.lt_of_not_le fun full => proceeds (.inr (.inr full))
    obtain ⟨free, inside, -⟩ := valid.nextFree_bound few (.inl rfl) next
    rw [← registered] at afterValid ⊢
    exact exact.register free inside afterValid

theorem Afl.Exact.addToQueue (exact : afl.Exact) (valid : afl.Valid) (len : UInt32) (weight : Rat) :
    (addToQueue afl len weight).Exact := by
  constructor
  case size =>
    refine exact.size.trans (Finset.sum_congr rfl fun tid _ => ?_)
    symm
    refine Afl.slotLen_congr rfl fun q holds => ?_
    have old := valid.owner tid q holds
    dsimp only [TestcaseCache.addToQueue]
    rw [Function.update_of_ne (Nat.ne_of_lt old)]
  case buffers =>
    intro q size made
    dsimp only [TestcaseCache.addToQueue] at made ⊢
    rw [Function.update_apply] at made ⊢
    split at made
    · cases made
    · next other =>
      rw [if_neg other]
      exact exact.buffers q size made

theorem Afl.Exact.modify_len (exact : afl.Exact) (valid : afl.Valid) {q : Nat} {len : UInt32}
    (inQueue : q < afl.queuedItems)
    (same : (afl.queueBuf q).testcaseBuf = none ∨ len = (afl.queueBuf q).len) :
    (afl.modify q fun entry => { entry with len }).Exact := by
  constructor
  case size =>
    refine exact.size.trans (Finset.sum_congr rfl fun tid _ => ?_)
    symm
    refine Afl.slotLen_congr rfl fun r holds => ?_
    rcases same with bare | same
    · have other : r ≠ q := by
        intro here
        have cached := (valid.cached q inQueue).mpr ⟨tid, here ▸ holds⟩
        rw [bare] at cached
        cases cached
      exact congrArg QueueEntry.len (Function.update_of_ne other _ _)
    · exact Afl.modify_len same r
  case buffers =>
    intro r size made
    dsimp only [Afl.modify] at made ⊢
    rw [Function.update_apply] at made ⊢
    split at made
    · next here =>
      rw [if_pos here]
      rcases same with bare | same
      · have none := bare.symm.trans made
        cases none
      · exact (exact.buffers q size made).trans same.symm
    · next other =>
      rw [if_neg other]
      exact exact.buffers r size made

/-- The entry grows, with its buffer and the counter. -/
def Afl.grow (afl : Afl) (q : Nat) (len : UInt32) : Afl :=
  { afl.modify q fun entry => { entry with len, testcaseBuf := some len } with
    cacheSize := afl.cacheSize + (len - (afl.queueBuf q).len).toUInt64 }

theorem Afl.Valid.grow (valid : afl.Valid) {q : Nat} (len : UInt32)
    (buffered : (afl.queueBuf q).testcaseBuf.isSome = true) : (afl.grow q len).Valid := by
  have changed : (afl.modify q fun entry => { entry with len, testcaseBuf := some len }).Valid :=
    valid.modify buffered.symm
  exact changed.of_buffers fun _ => rfl

theorem Afl.Exact.grow (exact : afl.Exact) (valid : afl.Valid) {q : Nat} {len : UInt32}
    (inQueue : q < afl.queuedItems) (buffered : (afl.queueBuf q).testcaseBuf.isSome = true)
    (grows : (afl.queueBuf q).len ≤ len) : (afl.grow q len).Exact := by
  obtain ⟨tid, holds⟩ := (valid.cached q inQueue).mp buffered
  have inside := valid.below tid (Valid.occupied_of_cache holds)
  have others : ∀ s, s ≠ tid → (afl.grow q len).slotLen s = afl.slotLen s := by
    intro s other
    refine Afl.slotLen_congr rfl fun r found => ?_
    have elsewhere : r ≠ q := fun same => other (valid.unique s tid q (same ▸ found) holds)
    exact congrArg QueueEntry.len (Function.update_of_ne elsewhere _ _)
  have entry : (afl.grow q len).queueBuf q = { afl.queueBuf q with len, testcaseBuf := some len } :=
    Function.update_self ..
  have here : (afl.grow q len).slotLen tid = len.toNat := by
    rw [@Afl.slotLen_of_cache (afl.grow q len) tid q holds, entry]
  have changed := @cachedLen_of_eq_off afl (afl.grow q len) tid rfl inside others
  have bound := (valid.grow len buffered).cachedLen_lt
  rw [Afl.slotLen_of_cache holds, here, ← exact.size] at changed
  constructor
  case size =>
    have counted : (afl.grow q len).cacheSize =
        afl.cacheSize + (len - (afl.queueBuf q).len).toUInt64 := rfl
    have difference := UInt32.toNat_sub_of_le _ _ grows
    have order := UInt32.le_iff_toNat_le.mp grows
    rw [counted, UInt64.toNat_add, UInt32.toNat_toUInt64, difference, Nat.mod_eq_of_lt (by omega)]
    omega
  case buffers =>
    intro r size made
    dsimp only [Afl.grow, Afl.modify] at made ⊢
    rw [Function.update_apply] at made ⊢
    split at made
    · next same =>
      rw [if_pos same]
      exact (Option.some.inj made).symm
    · next other =>
      rw [if_neg other]
      exact exact.buffers r size made

/-! ## Runs -/

/-- A trimmed entry that is in the cache does not get shorter, and if it gets longer without a
custom trimmer it does by less than 1024 bytes, which come from another buffer into a block that
`realloc` found. -/
def Afl.AdmitsTrim (afl : Afl) : Action → Prop
  | .trimCustom q len =>
      (afl.queueBuf q).testcaseBuf = none ∨ (afl.queueBuf q).len ≤ len
  | .trim q len same moved =>
      (afl.queueBuf q).testcaseBuf = none ∨ len = (afl.queueBuf q).len ∨
        (afl.queueBuf q).len ≤ len ∧ len < (afl.queueBuf q).len + 1024 ∧ same = false ∧ moved = true
  | _ => True

instance (afl : Afl) : (action : Action) → Decidable (afl.AdmitsTrim action)
  | .trimCustom _ _ => inferInstanceAs (Decidable (_ ∨ _))
  | .trim _ _ _ _ => inferInstanceAs (Decidable (_ ∨ _ ∨ _))
  | .get _ _ | .add _ _ | .save _ _ | .weigh _ _ | .select _ => .isTrue trivial

theorem retake_modify (afl : Afl) (q : Nat) (len : UInt32) :
    queueTestcaseRetake (afl.modify q fun entry => { entry with len }) q (afl.queueBuf q).len =
      if (afl.queueBuf q).testcaseBuf.isSome = true ∧
        ((afl.queueBuf q).len < len ∨ len < (afl.queueBuf q).len + 1024) then afl.grow q len
      else afl.modify q fun entry => { entry with len } := by
  have entry : (afl.modify q fun entry => { entry with len }).queueBuf q =
      { afl.queueBuf q with len } := Function.update_self ..
  unfold queueTestcaseRetake
  rw [entry]
  cases (afl.queueBuf q).testcaseBuf.isSome with
  | false => simp
  | true =>
    simp only [if_true, true_and]
    split
    · simp only [Afl.grow, Afl.modify, Function.update_self, Function.update_idem]
    · rfl

theorem retakeMem_modify (afl : Afl) (q : Nat) (same moved : Bool) (len : UInt32) :
    queueTestcaseRetakeMem (afl.modify q fun entry => { entry with len }) q same moved len
        (afl.queueBuf q).len =
      if (afl.queueBuf q).testcaseBuf.isSome = true ∧ same = false ∧
        len < (afl.queueBuf q).len + 1024 ∧ moved = true then afl.grow q len
      else afl.modify q fun entry => { entry with len } := by
  have entry : (afl.modify q fun entry => { entry with len }).queueBuf q =
      { afl.queueBuf q with len } := Function.update_self ..
  unfold queueTestcaseRetakeMem
  rw [entry]
  cases (afl.queueBuf q).testcaseBuf.isSome with
  | false => simp
  | true =>
    cases same with
    | true => simp
    | false =>
      cases moved with
      | false => simp
      | true =>
        simp only [if_true, true_and, and_true, Bool.not_false, Bool.true_and, Bool.and_true,
          decide_eq_true_eq]
        split
        · simp only [Afl.grow, Afl.modify, Function.update_self, Function.update_idem]
        · rfl

theorem Afl.Exact.apply (exact : afl.Exact) (valid : afl.Valid) {action : Action} {after : Afl}
    (admits : afl.AdmitsTrim action) (applies : afl.apply action = some after) : after.Exact := by
  cases action with
  | get q draws =>
    obtain ⟨inQueue, gets⟩ := Option.ite_none_right_eq_some.mp applies
    exact exact.get valid inQueue gets
  | add len weight => exact Option.some.inj applies ▸ exact.addToQueue valid len weight
  | save len weight =>
    refine (exact.addToQueue valid len weight).storeMem (valid.addToQueue len weight)
      (Nat.lt_succ_self _) ?_ applies
    dsimp only [TestcaseCache.addToQueue]
    rw [Function.update_self]
  | trimCustom q len =>
    obtain ⟨inQueue, trims⟩ := Option.ite_none_right_eq_some.mp applies
    rw [← Option.some.inj trims, retake_modify]
    rcases admits with bare | grows
    · rw [if_neg (by simp [bare])]
      exact exact.modify_len valid inQueue (.inl bare)
    · split
      · next resized => exact exact.grow valid inQueue resized.1 grows
      · next kept =>
        refine exact.modify_len valid inQueue ?_
        cases buffered : (afl.queueBuf q).testcaseBuf with
        | none => exact .inl rfl
        | some size =>
          rw [buffered] at kept
          refine .inr (UInt32.le_antisymm (UInt32.not_lt.mp fun less => ?_) grows)
          exact kept ⟨rfl, .inl less⟩
  | trim q len same moved =>
    obtain ⟨inQueue, trims⟩ := Option.ite_none_right_eq_some.mp applies
    rw [← Option.some.inj trims, retakeMem_modify]
    split
    · next resized =>
      refine exact.grow valid inQueue resized.1 ?_
      rcases admits with bare | unchanged | ⟨grows, -⟩
      · rw [bare] at resized
        cases resized.1
      · exact unchanged ▸ UInt32.le_refl _
      · exact grows
    · next kept =>
      refine exact.modify_len valid inQueue ?_
      rcases admits with bare | unchanged | ⟨-, below, apart, block⟩
      · exact .inl bare
      · exact .inr unchanged
      · left
        refine Option.not_isSome_iff_eq_none.mp fun buffered => ?_
        exact kept ⟨buffered, apart, below, block⟩
  | weigh q weight =>
    rw [← Option.some.inj applies]
    constructor
    case size =>
      refine exact.size.trans (Finset.sum_congr rfl fun tid _ => ?_)
      symm
      exact Afl.slotLen_congr rfl fun r _ => Afl.modify_len rfl r
    case buffers =>
      intro r size made
      rw [Afl.modify_len rfl r]
      refine exact.buffers r size (Eq.trans ?_ made)
      dsimp only [Afl.modify]
      rw [Function.update_apply]
      split
      · next same => rw [same]
      · rfl
  | select q => exact Option.some.inj applies ▸ ⟨exact.size, exact.buffers⟩

end

/-- In a run that does not shorten entries in the cache, the counter is the sum of the lengths of
the entries in it, whose buffers are as long as they are. -/
theorem cacheSize_exact {maxCacheSize : UInt64} {maxCacheEntries : UInt32} {actions : List Action}
    {afl : Afl}
    (admitted : (testcaseCache maxCacheSize maxCacheEntries).Admitted Afl.AdmitsTrim
      (testcaseCache maxCacheSize maxCacheEntries).initial actions)
    (ran : (testcaseCache maxCacheSize maxCacheEntries).run actions = some afl) : afl.Exact := by
  have both : afl.Valid ∧ afl.Exact := by
    refine Machine.runFrom_invariant_of_admitted _ (fun afl => afl.Valid ∧ afl.Exact) ?_ ?_
      admitted ran
    · intro state action next good admits applies
      exact ⟨good.1.apply applies, good.2.apply good.1 admits applies⟩
    · exact ⟨.initial maxCacheSize maxCacheEntries, rfl, fun _ _ made => nomatch made⟩
  exact both.2

/-- A custom trimmer halves an entry, and the counter grows by 4 GB. -/
theorem cacheSize_trimCustom : ∃ afl : Afl,
    (testcaseCache 0x4000000 4).run [.save 100 1, .trimCustom 0 50] = some afl ∧
      afl.cachedLen = 50 ∧ afl.cacheSize = 0x100000032 :=
  ⟨_, rfl, rfl, rfl⟩

theorem cacheSize_exact_longer : ∃ afl : Afl,
    (testcaseCache 0x4000000 4).run [.save 100 1, .save 200 1, .trimCustom 0 150] = some afl ∧
      afl.Exact := by
  obtain ⟨afl, ran⟩ : ∃ afl, (testcaseCache 0x4000000 4).run
      [.save 100 1, .save 200 1, .trimCustom 0 150] = some afl := ⟨_, rfl⟩
  exact ⟨afl, ran, cacheSize_exact (by decide) ran⟩

end SbFuzz.Fuzzer.TestcaseCache
